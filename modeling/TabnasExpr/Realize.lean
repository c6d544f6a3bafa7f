import TabnasExpr.Rust.Value

/-!
# What `realize` leaves of the handles

`realize` goes on to the elements and members of a container, and to the terms of a node.  What a
list or map carries beside them, its child and its meta data, is kept as it is, and so is the custom
data of an operator.
-/

namespace TabnasExpr.Rust

open Walk

universe u

variable {ν : Type u} [Double ν]

namespace Value

mutual

/-- No handle is anywhere in a value. -/
@[simp] def HandleFree : Value ν → Prop
  | .listRef xs implicit child metas =>
    nodeId (.listRef xs implicit child metas) = none ∧ AllFree xs ∧ ChildFree child ∧ MembersFree metas
  | .array xs => AllFree xs
  | .object ms => MembersFree ms
  | .mapRef ms _ metas => MembersFree ms ∧ MembersFree metas
  | _ => True

def AllFree : List (Value ν) → Prop
  | [] => True
  | x :: xs => HandleFree x ∧ AllFree xs

def ChildFree : Option (Value ν) → Prop
  | none => True
  | some x => HandleFree x

def MembersFree : List (String × Value ν) → Prop
  | [] => True
  | (_, x) :: ms => HandleFree x ∧ MembersFree ms

end

mutual

/-- No handle is in what the walk through a value keeps as it is: the child and the meta data of the
lists and maps it goes through. -/
def KeptFree : Value ν → Prop
  | .listRef xs implicit child metas =>
    nodeId (.listRef xs implicit child metas) = none →
      AllKeptFree xs ∧ ChildFree child ∧ MembersFree metas
  | .array xs => AllKeptFree xs
  | .object ms => MembersKeptFree ms
  | .mapRef ms _ metas => MembersKeptFree ms ∧ MembersFree metas
  | _ => True

def AllKeptFree : List (Value ν) → Prop
  | [] => True
  | x :: xs => KeptFree x ∧ AllKeptFree xs

def MembersKeptFree : List (String × Value ν) → Prop
  | [] => True
  | (_, x) :: ms => KeptFree x ∧ MembersKeptFree ms

end

/-- Nor is one in what is kept of a node. -/
def NodeKeptFree (entry : ValueNode ν) : Prop :=
  AllKeptFree entry.terms ∧ ∀ op ∈ entry.op, HandleFree op.useValue

/-! ## Through a value -/

/-- The walk goes through, and no handle is left exactly when none is kept and none is left of a
node. -/
def Realized (node : ℕ → Option (Value ν)) (v : Value ν) : Prop :=
  ∃ r, realizeSeen node v = some r ∧
    (HandleFree r ↔ KeptFree v ∧ ∀ i ∈ handles v, ∀ r, node i = some r → HandleFree r)

theorem realized_all {node : ℕ → Option (Value ν)} {xs : List (Value ν)}
    (h : ∀ x ∈ xs, Realized node x) :
    ∃ rs, realizeAll node xs = some rs ∧
      (AllFree rs ↔ AllKeptFree xs ∧ ∀ i ∈ handlesAll xs, ∀ r, node i = some r → HandleFree r) := by
  induction xs with
  | nil => exact ⟨[], rfl, by simp [AllFree, AllKeptFree, handlesAll]⟩
  | cons x xs ih =>
    obtain ⟨r, hr, hfree⟩ := h x List.mem_cons_self
    obtain ⟨rs, hrs, hfrees⟩ := ih fun y hy => h y (List.mem_cons_of_mem x hy)
    refine ⟨r :: rs, by simp [realizeAll, hr, hrs], ?_⟩
    simp only [AllFree, AllKeptFree, handlesAll, List.mem_append, or_imp, forall_and, hfree, hfrees]
    exact and_and_and_comm

theorem realized_members {node : ℕ → Option (Value ν)} {ms : List (String × Value ν)}
    (h : ∀ m ∈ ms, Realized node m.2) :
    ∃ rs, realizeMembers node ms = some rs ∧ (MembersFree rs ↔
      MembersKeptFree ms ∧ ∀ i ∈ handlesMembers ms, ∀ r, node i = some r → HandleFree r) := by
  induction ms with
  | nil => exact ⟨[], rfl, by simp [MembersFree, MembersKeptFree, handlesMembers]⟩
  | cons m ms ih =>
    obtain ⟨k, x⟩ := m
    obtain ⟨r, hr, hfree⟩ := h (k, x) List.mem_cons_self
    obtain ⟨rs, hrs, hfrees⟩ := ih fun y hy => h y (List.mem_cons_of_mem _ hy)
    refine ⟨(k, r) :: rs, by simp [realizeMembers, hr, hrs], ?_⟩
    simp only [MembersFree, MembersKeptFree, handlesMembers, List.mem_append, or_imp, forall_and, hfree,
      hfrees]
    exact and_and_and_comm

theorem realized {node : ℕ → Option (Value ν)} (v : Value ν)
    (h : ∀ i ∈ handles v, ∃ r, node i = some r) : Realized node v := by
  induction v using Value.induction with
  | array xs ih =>
    obtain ⟨rs, hrs, hfree⟩ := realized_all fun x hx => ih x hx fun i hi =>
      h i (mem_handlesAll.2 ⟨x, hx, hi⟩)
    exact ⟨.array rs, by simp [realizeSeen, hrs], hfree⟩
  | object ms ih =>
    obtain ⟨rs, hrs, hfree⟩ := realized_members fun m hm => ih m hm fun i hi =>
      h i (mem_handlesMembers.2 ⟨m, hm, hi⟩)
    exact ⟨.object rs, by simp [realizeSeen, hrs], hfree⟩
  | mapRef ms implicit metas ih =>
    obtain ⟨rs, hrs, hfree⟩ := realized_members fun m hm => ih m hm fun i hi =>
      h i (mem_handlesMembers.2 ⟨m, hm, hi⟩)
    refine ⟨.mapRef rs implicit metas, by simp [realizeSeen, hrs], ?_⟩
    simp only [HandleFree, KeptFree, handles, hfree]
    exact and_right_comm
  | listRef xs implicit child metas ih =>
    cases hid : nodeId (.listRef xs implicit child metas) with
    | some id =>
      obtain ⟨r, hr⟩ := h id (by simp [handles, hid])
      exact ⟨r, by simp [realizeSeen, hid, hr], by simp [KeptFree, handles, hid, hr]⟩
    | none =>
      obtain ⟨rs, hrs, hfree⟩ := realized_all fun x hx => ih x hx fun i hi =>
        h i (by simpa [handles, hid] using mem_handlesAll.2 ⟨x, hx, hi⟩)
      refine ⟨.listRef rs implicit child metas, by simp [realizeSeen, hid, hrs], ?_⟩
      have hid' : nodeId (.listRef rs implicit child metas) = none := hid
      simp only [HandleFree, KeptFree, handles, hid, hid', hfree, true_and, forall_const]
      exact and_right_comm
  | _ => exact ⟨_, rfl, by simp [HandleFree, KeptFree, handles]⟩

/-! ## Through the nodes -/

theorem allFree_strings (l : List String) : AllFree (l.map .string : List (Value ν)) := by
  induction l with
  | nil => trivial
  | cons s l ih => exact ⟨trivial, ih⟩

theorem handleFree_numberOf (n : ℤ) : HandleFree (numberOf n : Value ν) := trivial

theorem handleFree_tokenValue (token : Option Token) : HandleFree (tokenValue token : Value ν) := by
  cases token with
  | none => trivial
  | some t => simp [tokenValue, HandleFree, MembersFree, handleFree_numberOf]

theorem handleFree_prevalValue (op : Description ν) : HandleFree op.prevalValue := by
  cases ha : op.preval.allow with
  | none => simp [Description.prevalValue, ha, HandleFree, MembersFree]
  | some l => simp [Description.prevalValue, ha, HandleFree, MembersFree, allFree_strings]

/-- A description has a handle only in its custom data. -/
theorem handleFree_toValue (op : Description ν) (token : Option Token) :
    HandleFree (op.toValue token) ↔ HandleFree op.useValue := by
  simp [Description.toValue, HandleFree, MembersFree, handleFree_numberOf, handleFree_tokenValue,
    handleFree_prevalValue]

variable {A : Store (ValueNode ν)}

/-- What is left of a node is free of handles exactly when none is kept of the nodes the walk comes
to from it, off the nodes it is inside of. -/
def NodeRealized (A : Store (ValueNode ν)) (fuel : ℕ) (opened : List ℕ) (i : ℕ) : Prop :=
  ∃ r, realizeNode A fuel opened i = some r ∧ (HandleFree r ↔ (i ∉ opened →
    ∀ j, Reaches (off (links A) opened) i j → ∀ entry, A.cell j = some entry → NodeKeptFree entry))

theorem nodeRealized_succ {fuel : ℕ} {opened : List ℕ} {i : ℕ} {entry : ValueNode ν}
    (he : A.cell i = some entry)
    (ih : i ∉ opened → ∀ j ∈ handlesAll entry.terms, NodeRealized A fuel (i :: opened) j) :
    NodeRealized A (fuel + 1) opened i := by
  by_cases hio : i ∈ opened
  · exact ⟨circle, by simp [realizeNode, hio], by simp [hio, circle, HandleFree]⟩
  · have ih := ih hio
    have hterms : ∀ x ∈ entry.terms, Realized (realizeNode A fuel (i :: opened)) x := fun x hx =>
      realized x fun j hj => (ih j (mem_handlesAll.2 ⟨x, hx, hj⟩)).imp fun _ h => h.1
    obtain ⟨rs, hrs, hfree⟩ := realized_all hterms
    refine ⟨_, by simp [realizeNode, hio, he, hrs]; rfl, ?_⟩
    have hdesc : HandleFree (.array ((entry.op.map (Description.toValue · entry.token)).toList ++ rs)) ↔
        (∀ op ∈ entry.op, HandleFree op.useValue) ∧ AllFree rs := by
      cases hop : entry.op with
      | none => simp [HandleFree]
      | some op => simp [HandleFree, AllFree, handleFree_toValue]
    have hbelow : (∀ j ∈ handlesAll entry.terms, ∀ r,
        realizeNode A fuel (i :: opened) j = some r → HandleFree r) ↔
        ∀ l ∈ links A i, l ∉ i :: opened → ∀ j, Reaches (off (links A) (i :: opened)) l j →
          ∀ entry, A.cell j = some entry → NodeKeptFree entry := by
      rw [links_of_cell he]
      refine forall₂_congr fun l hl => ?_
      obtain ⟨r, hr, hrfree⟩ := ih l hl
      simp [hr, hrfree]
    rw [hdesc, hfree, hbelow]
    constructor
    · rintro ⟨huse, hkept, hlinks⟩ - j hij entry' he'
      rcases reaches_off hij with rfl | ⟨l, hl, hlo, hlj⟩
      · obtain rfl := Option.some.inj (he.symm.trans he')
        exact ⟨hkept, huse⟩
      · exact hlinks l hl hlo j hlj entry' he'
    · intro h
      have h := h hio
      obtain ⟨hkept, huse⟩ := h i .refl entry he
      refine ⟨huse, hkept, fun l hl hlo j hlj entry' he' => h j ?_ entry' he'⟩
      have hloff : l ∈ off (links A) opened i :=
        List.mem_filter.2 ⟨hl, by simpa using fun hm => hlo (List.mem_cons_of_mem i hm)⟩
      exact .head hloff (Reaches.of_off_cons hlj)

theorem free_realizeNode {i : ℕ} (hi : LiveNode A i) :
    ∃ r, realizeNode A (A.last + 2) [] i = some r ∧ (HandleFree r ↔
      ∀ j, Reaches (links A) i j → ∀ entry, A.cell j = some entry → NodeKeptFree entry) := by
  have h : NodeRealized A (A.last + 2) [] i :=
    walk_induction (fun _ h => h) (fun _ h _ hj => h.link hj)
      (fun _ _ _ _ _ he ih => nodeRealized_succ he ih) hi
  simpa [NodeRealized] using h

/-- The nodes at and below the handles of a value keep no handle, and the value keeps none itself. -/
def NothingKept (A : Store (ValueNode ν)) (v : Value ν) : Prop :=
  KeptFree v ∧ ∀ i ∈ handles v, ∀ j, Reaches (links A) i j →
    ∀ entry, A.cell j = some entry → NodeKeptFree entry

/-- A value with live handles is realized, and no handle is anywhere in the outcome exactly when
none is in the child or the meta data of a list or map the walk goes through, nor in the custom data
of an operator it describes. -/
theorem realize_handleFree_iff {v : Value ν} (hv : Live A v) :
    ∃ r, realize A v = some r ∧ (HandleFree r ↔ NothingKept A v) := by
  have h : Realized (realizeNode A (A.last + 2) []) v := realized v fun i hi =>
    (free_realizeNode (hv i hi)).imp fun _ h => h.1
  obtain ⟨r, hr, hfree⟩ := h
  refine ⟨r, hr, hfree.trans (and_congr_right fun _ => forall₂_congr fun i hi => ?_)⟩
  obtain ⟨s, hs, hsfree⟩ := free_realizeNode (hv i hi)
  simp [hs, hsfree]

/-! ## A handle that is left -/

/-- An arena with one node, a list of one element. -/
def oneNode : Store (ValueNode ℤ) := (Store.empty.alloc ⟨none, none, [.null]⟩).1

theorem cell_oneNode : oneNode.cell 1 = some ⟨none, none, [.null]⟩ := rfl

theorem liveNode_oneNode : LiveNode oneNode 1 := by
  intro j hj
  rcases hj.cases_head with rfl | ⟨k, hk, -⟩
  · simp [cell_oneNode]
  · simp [Holds, links, cell_oneNode, handlesAll, handles] at hk

theorem live_oneNode : Live oneNode (handleFor 1) := by
  intro i hi
  obtain rfl : i = 1 := by simpa [handles, handleFor, nodeId, Double.ofInt, Double.asU64] using hi
  exact liveNode_oneNode

theorem realize_oneNode : ∃ r, realize oneNode (handleFor 1) = some r ∧
    (HandleFree r ↔ NothingKept oneNode (handleFor 1)) :=
  realize_handleFree_iff live_oneNode

/-- A list whose child is a handle. -/
def childHandle : Value ℤ := .listRef [.null] false (some (handleFor 1)) []

/-- The child of a list stays a handle. -/
theorem realize_childHandle : LiveNode oneNode 1 ∧ Live oneNode childHandle ∧
    ∃ r, realize oneNode childHandle = some r ∧ ¬ HandleFree r := by
  refine ⟨liveNode_oneNode, ?_, childHandle, rfl, ?_⟩
  · simp [Live, childHandle, handles, handlesAll, nodeId]
  · simp [childHandle, HandleFree, ChildFree, handleFor, nodeId]

end Value

end TabnasExpr.Rust
