import Mathlib.Data.List.Basic
import Mathlib.Data.List.Sort
import TabnasExpr.Lib.Walk

/-!
# What the C library withholds

A value is put into a reply only after a walk has found nothing in it that JSON would corrupt: text that
is not UTF-8, an arbitrary-precision number, or a container that holds itself.  The walk keeps the
containers it is inside of, so that it comes to an end on every value (`jsonUnsafe_spec`); a map is
walked in the order of its keys, so that its answer does not depend on the order a map has
(`jsonUnsafe_perm`).
-/

namespace TabnasExpr.Clib

open Walk Relation

/-! ### Values -/

/-- The bytes of a Go string. -/
abbrev Text := List UInt8

/-- A container on the path: its address, its length and its type. -/
structure PathKey (τ : Type*) where
  addr : ℕ
  n : ℕ
  t : τ
  deriving DecidableEq

/-- What the walk reads of a struct field: its `json` tag, whether it is exported or embedded, and
whether its type is a struct or a pointer to one. -/
structure Field where
  tag : String
  isExported : Bool
  anonymous : Bool
  isStruct : Bool

/-- A value as reflection sees it.  Pointers, maps and slices have an address unless they are nil. -/
inductive Value (τ : Type*)
  | invalid
  | rawMessage (s : Text)
  | big
  | string (s : Text)
  | interface (elem : Value τ)
  | pointer (addr : Option ℕ) (t : τ)
  | map (addr : Option ℕ) (t : τ)
  | slice (addr : Option ℕ) (len : ℕ) (isBytes : Bool) (t : τ)
  | array (elems : List (Value τ))
  | struct (types : List Field) (fields : List (Value τ))
  | other

/-- What a container holds: the elements of a slice, the entries of a map with string keys or the values
of another map, the keys and values of the engine's object node, or what else a pointer points to. -/
inductive Node (τ : Type*)
  | slice (elems : List (Value τ))
  | entries (es : List (Text × Value τ))
  | values (vs : List (Value τ))
  | orderedNode (keys : List Text) (vals : List (Text × Value τ))
  | pointee (v : Value τ)

/-- The containers there are. -/
abbrev Memory (τ : Type*) := List (PathKey τ × Node τ)

def Memory.node {τ : Type*} [DecidableEq τ] (m : Memory τ) (k : PathKey τ) : Node τ :=
  (m.lookup k).getD (.slice [])

/-- The reasons `jsonUnsafe` gives. -/
inductive Reason
  | utf8
  | number
  | cycle
  deriving DecidableEq

/-- The text of a reason; each completes "value contains …". -/
def Reason.text : Reason → String
  | .utf8 => "non-UTF-8 string bytes that JSON encoding would corrupt"
  | .number => "arbitrary-precision numbers that JSON encoding would corrupt"
  | .cycle => "a reference to itself, which JSON cannot represent"

/-! ### The walk -/

variable {τ : Type*} (valid : Text → Bool)

/-- The rest of a loop, unless there is a reason already. -/
def orElse (why : Option (Option Reason)) (rest : Option (Option Reason)) : Option (Option Reason) :=
  match why with
  | some none => rest
  | _ => why

def checkText (s : Text) : Option (Option Reason) := some (if valid s then none else some .utf8)

section Values

variable (container : PathKey τ → Option (Option Reason))

mutual

/-- The walk of a value, with that of the containers it is in: a reason, or none; it may not come to an
end. -/
def value : Value τ → Option (Option Reason)
  | .invalid | .other => some none
  | .rawMessage s | .string s => checkText valid s
  | .big => some (some .number)
  | .interface v => value v
  | .pointer none _ | .map none _ | .slice none _ _ _ => some none
  | .pointer (some a) t | .map (some a) t => container ⟨a, 0, t⟩
  | .slice (some a) n isBytes t => if n = 0 || isBytes then some none else container ⟨a, n, t⟩
  | .array vs => elems vs
  | .struct ts vs => fields ts vs

def elems : List (Value τ) → Option (Option Reason)
  | [] => some none
  | v :: vs => orElse (value v) (elems vs)

def fields : List Field → List (Value τ) → Option (Option Reason)
  | f :: ts, v :: vs =>
    if f.tag = "-" then fields ts vs
    else if !f.isExported && (!f.anonymous || !f.isStruct) then fields ts vs
    else orElse (value v) (fields ts vs)
  | _, _ => some none

end

def entries : List (Text × Value τ) → Option (Option Reason)
  | [] => some none
  | (k, v) :: es => orElse (checkText valid k) (orElse (value valid container v) (entries es))

def ordered (vals : List (Text × Value τ)) : List Text → Option (Option Reason)
  | [] => some none
  | k :: keys => orElse (checkText valid k)
    (orElse (value valid container ((vals.lookup k).getD .invalid)) (ordered vals keys))

/-- The walk of what a container holds. -/
def node : Node τ → Option (Option Reason)
  | .slice vs | .values vs => elems valid container vs
  | .entries es => entries valid container (es.mergeSort fun a b => a.1 ≤ b.1)
  | .orderedNode keys vals => ordered valid container vals keys
  | .pointee v => value valid container v

end Values

section Walked

variable [DecidableEq τ] (m : Memory τ)

/-- The walk of a container, unless it is on the path. -/
def container : ℕ → List (PathKey τ) → PathKey τ → Option (Option Reason)
  | 0, _, _ => none
  | fuel + 1, onPath, k =>
    if k ∈ onPath then some (some .cycle) else node valid (container fuel (k :: onPath)) (m.node k)

def jsonUnsafe (fuel : ℕ) (val : Value τ) : Option (Option Reason) :=
  value valid (container valid m fuel []) val

/-- The part of the reply of an accepted source that has its value, or says why it has none. -/
inductive AcceptDoc (J : Type*)
  | value (doc : J)
  | valueError (text : String)

/-- `acceptDoc`, for a `json.Marshal` that gives a document or the first line of its error. -/
def acceptDoc {J : Type*} (marshal : Value τ → Except String J) (fuel : ℕ) (val : Value τ) :
    Option (AcceptDoc J) :=
  (jsonUnsafe valid m fuel val).map fun
    | some why => .valueError ("value contains " ++ why.text ++ "; retrieve it via a native tabnas runtime")
    | none =>
      match marshal val with
      | .ok doc => .value doc
      | .error line => .valueError line

end Walked

/-! ### What the walk comes to -/

/-- What the walk does something about: a text, a number, or a container. -/
inductive Spot (τ : Type*)
  | text (s : Text)
  | number
  | ref (k : PathKey τ)

mutual

/-- What the walk of a value comes to outside of containers, in its order. -/
def Value.spots : Value τ → List (Spot τ)
  | .invalid | .other => []
  | .rawMessage s | .string s => [.text s]
  | .big => [.number]
  | .interface v => v.spots
  | .pointer none _ | .map none _ | .slice none _ _ _ => []
  | .pointer (some a) t | .map (some a) t => [.ref ⟨a, 0, t⟩]
  | .slice (some a) n isBytes t => if n = 0 || isBytes then [] else [.ref ⟨a, n, t⟩]
  | .array vs => elemSpots vs
  | .struct ts vs => fieldSpots ts vs

def elemSpots : List (Value τ) → List (Spot τ)
  | [] => []
  | v :: vs => v.spots ++ elemSpots vs

def fieldSpots : List Field → List (Value τ) → List (Spot τ)
  | f :: ts, v :: vs =>
    if f.tag = "-" then fieldSpots ts vs
    else if !f.isExported && (!f.anonymous || !f.isStruct) then fieldSpots ts vs
    else v.spots ++ fieldSpots ts vs
  | _, _ => []

end

def Node.spots : Node τ → List (Spot τ)
  | .slice vs | .values vs => elemSpots vs
  | .entries es => (es.mergeSort fun a b => a.1 ≤ b.1).flatMap fun e => .text e.1 :: e.2.spots
  | .orderedNode keys vals => keys.flatMap fun k => .text k :: ((vals.lookup k).getD .invalid).spots
  | .pointee v => v.spots

section First

variable {β : Type*} (f : β → Option (Option Reason))

/-- The first reason of a list. -/
def first : List β → Option (Option Reason)
  | [] => some none
  | x :: xs => orElse (f x) (first xs)

variable {f} {xs ys : List β}

theorem orElse_assoc (a b c : Option (Option Reason)) : orElse (orElse a b) c = orElse a (orElse b c) := by
  rcases a with _ | _ | _ <;> rfl

theorem orElse_none (a : Option (Option Reason)) : orElse a (some none) = a := by
  rcases a with _ | _ | _ <;> rfl

theorem first_append : first f (xs ++ ys) = orElse (first f xs) (first f ys) := by
  induction xs with
  | nil => rfl
  | cons x xs ih => rw [List.cons_append, first, ih, first, orElse_assoc]

theorem first_eq_none_iff : first f xs = some none ↔ ∀ x ∈ xs, f x = some none := by
  induction xs with
  | nil => simp [first]
  | cons x xs ih =>
    rw [first, List.forall_mem_cons, ← ih]
    rcases hx : f x with _ | _ | r <;> simp [orElse]

theorem first_eq_some {r : Reason} (h : first f xs = some (some r)) : ∃ x ∈ xs, f x = some (some r) := by
  induction xs with
  | nil => cases h
  | cons x xs ih =>
    rw [first] at h
    rcases hx : f x with _ | _ | r' <;> rw [hx] at h
    · cases h
    · obtain ⟨y, hy, hr⟩ := ih h
      exact ⟨y, List.mem_cons_of_mem x hy, hr⟩
    · exact ⟨x, List.mem_cons_self, hx.trans h⟩

theorem first_ne_none (h : ∀ x ∈ xs, f x ≠ none) : first f xs ≠ none := by
  induction xs with
  | nil => simp [first]
  | cons x xs ih =>
    rw [List.forall_mem_cons] at h
    rw [first]
    rcases hx : f x with _ | _ | r
    · exact absurd hx h.1
    · exact ih h.2
    · simp [orElse]

theorem first_mono {f g : β → Option (Option Reason)} {r : Option Reason}
    (h : ∀ x r, f x = some r → g x = some r) : (xs : List β) → first f xs = some r → first g xs = some r
  | [], hr => hr
  | x :: xs, hr => by
    rw [first] at hr ⊢
    rcases hx : f x with _ | _ | r' <;> rw [hx] at hr
    · cases hr
    · rw [h x _ hx]
      exact first_mono h xs hr
    · rw [h x _ hx]
      exact hr

end First

section Spots

variable {valid} {c : PathKey τ → Option (Option Reason)}

/-- What the walk does about a spot. -/
def check (valid : Text → Bool) (c : PathKey τ → Option (Option Reason)) : Spot τ → Option (Option Reason)
  | .text s => checkText valid s
  | .number => some (some .number)
  | .ref k => c k

mutual

theorem value_eq_first : (v : Value τ) → value valid c v = first (check valid c) v.spots
  | .invalid | .other | .pointer none _ | .map none _ | .slice none _ _ _ => rfl
  | .rawMessage s | .string s => (orElse_none _).symm
  | .big => rfl
  | .interface v => value_eq_first v
  | .pointer (some a) t | .map (some a) t => (orElse_none _).symm
  | .slice (some a) n isBytes t => by
    rw [value, Value.spots]
    split_ifs
    · rfl
    · exact (orElse_none _).symm
  | .array vs => elems_eq_first vs
  | .struct ts vs => fields_eq_first ts vs

theorem elems_eq_first : (vs : List (Value τ)) → elems valid c vs = first (check valid c) (elemSpots vs)
  | [] => rfl
  | v :: vs => by rw [elems, elemSpots, first_append, value_eq_first v, elems_eq_first vs]

theorem fields_eq_first : (ts : List Field) → (vs : List (Value τ)) →
    fields valid c ts vs = first (check valid c) (fieldSpots ts vs)
  | f :: ts, v :: vs => by
    rw [fields, fieldSpots, fields_eq_first ts vs, value_eq_first v]
    split_ifs
    · rfl
    · rfl
    · rw [first_append]
  | [], _ => by rw [fields, fieldSpots, first] <;> simp
  | _ :: _, [] => by rw [fields, fieldSpots, first] <;> simp

end

theorem node_eq_first (n : Node τ) : node valid c n = first (check valid c) n.spots := by
  cases n with
  | slice vs | values vs => exact elems_eq_first vs
  | pointee v => exact value_eq_first v
  | entries es =>
    rw [node, Node.spots]
    induction es.mergeSort fun a b => a.1 ≤ b.1 with
    | nil => rfl
    | cons e es ih =>
      rw [entries, ih, List.flatMap_cons, List.cons_append, first, first_append, value_eq_first]
      rfl
  | orderedNode keys vals =>
    rw [node, Node.spots]
    induction keys with
    | nil => rfl
    | cons k keys ih =>
      rw [ordered, ih, List.flatMap_cons, List.cons_append, first, first_append, value_eq_first]
      rfl

theorem check_mono {c c' : PathKey τ → Option (Option Reason)} (h : ∀ k r, c k = some r → c' k = some r)
    (x : Spot τ) (r : Option Reason) (hr : check valid c x = some r) : check valid c' x = some r := by
  cases x with
  | text s | number => exact hr
  | ref k => exact h k r hr

end Spots

/-! ### What the walk finds -/

def Spot.refs : Spot τ → List (PathKey τ)
  | .ref k => [k]
  | _ => []

theorem mem_refs {x : Spot τ} {k : PathKey τ} : k ∈ x.refs ↔ x = .ref k := by
  cases x <;> simp [Spot.refs, eq_comm]

/-- The containers a value is made of. -/
def Value.refs (v : Value τ) : List (PathKey τ) := v.spots.flatMap Spot.refs

/-- The containers of a node. -/
def Node.refs (n : Node τ) : List (PathKey τ) := n.spots.flatMap Spot.refs

theorem mem_value_refs {v : Value τ} {k : PathKey τ} : k ∈ v.refs ↔ .ref k ∈ v.spots := by
  simp [Value.refs, mem_refs]

theorem mem_node_refs {n : Node τ} {k : PathKey τ} : k ∈ n.refs ↔ .ref k ∈ n.spots := by
  simp [Node.refs, mem_refs]

section Found

variable [DecidableEq τ]

/-- The containers that are in a container. -/
def Memory.next (m : Memory τ) (k : PathKey τ) : List (PathKey τ) := (m.node k).refs

/-- The value comes to the spot. -/
def Comes (m : Memory τ) (v : Value τ) (x : Spot τ) : Prop :=
  x ∈ v.spots ∨ ∃ k ∈ v.refs, ∃ k', Walk.Reaches m.next k k' ∧ x ∈ (m.node k').spots

/-- A container of the value holds itself. -/
def Circular (m : Memory τ) (v : Value τ) : Prop := ∃ k ∈ v.refs, Loop m.next k

variable {valid} {m : Memory τ} {k k' : PathKey τ} {onPath : List (PathKey τ)} {fuel : ℕ} {v : Value τ}

theorem mem_next : k' ∈ m.next k ↔ .ref k' ∈ (m.node k).spots := mem_node_refs

/-- What the answer of the walk of a container says. -/
structure Finds (valid : Text → Bool) (m : Memory τ) (onPath : List (PathKey τ)) (k : PathKey τ)
    (why : Option Reason) : Prop where
  clean : why = none → ¬ Sees m.next onPath k ∧ ∀ k', Walk.Reaches m.next k k' →
    ∀ x ∈ (m.node k').spots, (∀ s, x = .text s → valid s = true) ∧ x ≠ .number
  utf8 : why = some .utf8 → ∃ k' s, Walk.Reaches m.next k k' ∧ .text s ∈ (m.node k').spots ∧ valid s = false
  number : why = some .number → ∃ k', Walk.Reaches m.next k k' ∧ .number ∈ (m.node k').spots
  cycle : why = some .cycle → Sees m.next onPath k

theorem finds_onPath (hk : k ∈ onPath) : Finds valid m onPath k (some .cycle) where
  clean h := by cases h
  utf8 h := by cases h
  number h := by cases h
  cycle _ := sees_of_mem hk

theorem checkText_eq_none {s : Text} : checkText valid s = some none ↔ valid s = true := by
  unfold checkText
  cases valid s <;> simp

theorem checkText_eq_some {s : Text} {r : Reason} (h : checkText valid s = some (some r)) :
    r = .utf8 ∧ valid s = false := by
  unfold checkText at h
  cases hv : valid s <;> simp [hv] at h
  exact ⟨h.symm, rfl⟩

/-- The walk of a container that is not on the path finds what the walks of those in it find. -/
theorem finds_node {why : Option Reason} (hk : k ∉ onPath)
    (hwhy : node valid (container valid m fuel (k :: onPath)) (m.node k) = some why)
    (hnext : ∀ k' ∈ m.next k, ∃ why, container valid m fuel (k :: onPath) k' = some why ∧
      Finds valid m (k :: onPath) k' why) : Finds valid m onPath k why := by
  rw [node_eq_first] at hwhy
  have hspot {r : Reason} (h : why = some r) : ∃ x ∈ (m.node k).spots,
      check valid (container valid m fuel (k :: onPath)) x = some (some r) := first_eq_some (h ▸ hwhy)
  constructor
  · rintro rfl
    rw [first_eq_none_iff] at hwhy
    have hbelow : ∀ l ∈ m.next k, ¬ Sees m.next (k :: onPath) l ∧ ∀ k', Walk.Reaches m.next l k' →
        ∀ x ∈ (m.node k').spots, (∀ s, x = .text s → valid s = true) ∧ x ≠ .number := by
      intro l hl
      obtain ⟨why, hc, hf⟩ := hnext l hl
      have hnone := hwhy _ (mem_next.1 hl)
      exact hf.clean (Option.some.inj (hc.symm.trans hnone))
    constructor
    · rw [sees_iff hk]
      rintro ⟨l, hl, hsees⟩
      exact (hbelow l hl).1 hsees
    · intro k' hk'
      rcases hk'.cases_head with rfl | ⟨l, hl, hlk⟩
      · refine fun x hx => ⟨fun s hs => ?_, fun hn => ?_⟩
        · subst hs
          exact checkText_eq_none.1 (hwhy _ hx)
        · subst hn
          cases hwhy _ hx
      · exact (hbelow l hl).2 k' hlk
  · intro h
    obtain ⟨x, hx, hr⟩ := hspot h
    cases x with
    | text s => exact ⟨k, s, .refl, hx, (checkText_eq_some hr).2⟩
    | number => cases hr
    | ref l =>
      obtain ⟨why', hc, hf⟩ := hnext l (mem_next.2 hx)
      obtain ⟨k', s, hlk, hs⟩ := hf.utf8 (Option.some.inj (hc.symm.trans hr))
      exact ⟨k', s, .head (mem_next.2 hx) hlk, hs⟩
  · intro h
    obtain ⟨x, hx, hr⟩ := hspot h
    cases x with
    | text s => cases (checkText_eq_some hr).1
    | number => exact ⟨k, .refl, hx⟩
    | ref l =>
      obtain ⟨why', hc, hf⟩ := hnext l (mem_next.2 hx)
      obtain ⟨k', hlk, hs⟩ := hf.number (Option.some.inj (hc.symm.trans hr))
      exact ⟨k', .head (mem_next.2 hx) hlk, hs⟩
  · intro h
    obtain ⟨x, hx, hr⟩ := hspot h
    cases x with
    | text s => cases (checkText_eq_some hr).1
    | number => cases hr
    | ref l =>
      obtain ⟨why', hc, hf⟩ := hnext l (mem_next.2 hx)
      exact (sees_iff hk).2 ⟨l, mem_next.2 hx, hf.cycle (Option.some.inj (hc.symm.trans hr))⟩

/-- The containers a walk of the value can come to. -/
def Memory.refs (m : Memory τ) (v : Value τ) : List (PathKey τ) := v.refs ++ m.flatMap fun e => e.2.refs

theorem mem_refs_of_next (h : k' ∈ m.next k) : k' ∈ m.refs v := by
  refine List.mem_append_right _ (List.mem_flatMap.2 ?_)
  rw [Memory.next, Memory.node] at h
  cases hlook : m.lookup k with
  | none =>
    rw [hlook] at h
    cases h
  | some n =>
    rw [hlook] at h
    obtain ⟨_, _, hm, -⟩ := List.lookup_eq_some_iff.1 hlook
    exact ⟨_, hm ▸ List.mem_append_right _ List.mem_cons_self, h⟩

/-- The walk of a container comes to an end, and its answer holds. -/
theorem finds_container (hk : k ∈ m.refs v)
    (hfuel : ((m.refs v).toFinset \ onPath.toFinset).card < fuel) :
    ∃ why, container valid m fuel onPath k = some why ∧ Finds valid m onPath k why := by
  have hnext (k : PathKey τ) (_ : k ∈ m.refs v) : ∀ k' ∈ m.next k, k' ∈ m.refs v := fun _ => mem_refs_of_next
  refine fuel_induction (motive := fun fuel onPath k => ∃ why, container valid m fuel onPath k = some why ∧
    Finds valid m onPath k why) (fun _ => List.mem_toFinset.2) hnext ?_ fuel onPath k hk hfuel
  intro fuel onPath k _ ih
  rw [container]
  split_ifs with hon
  · exact ⟨_, rfl, finds_onPath hon⟩
  · have hnext := ih hon
    have hne : node valid (container valid m fuel (k :: onPath)) (m.node k) ≠ none := by
      rw [node_eq_first]
      refine first_ne_none fun x hx => ?_
      cases x with
      | text s => simp [check, checkText]
      | number => simp [check]
      | ref l =>
        obtain ⟨why, hc, -⟩ := hnext l (mem_next.2 hx)
        simp [check, hc]
    obtain ⟨why, hwhy⟩ := Option.ne_none_iff_exists'.1 hne
    exact ⟨why, hwhy, finds_node hon hwhy hnext⟩

/-! ### What the library says of a value -/

/-- The reason is one for this value. -/
def Reason.Holds (valid : Text → Bool) (m : Memory τ) (v : Value τ) : Reason → Prop
  | .utf8 => ∃ s, Comes m v (.text s) ∧ valid s = false
  | .number => Comes m v .number
  | .cycle => Circular m v

theorem Comes.of_ref {x : Spot τ} (hk : k ∈ v.refs) (h : Walk.Reaches m.next k k')
    (hx : x ∈ (m.node k').spots) : Comes m v x := .inr ⟨k, hk, k', h, hx⟩

/-- More fuel changes no answer. -/
theorem container_mono {fuel' : ℕ} (hle : fuel ≤ fuel') {why : Option Reason}
    (h : container valid m fuel onPath k = some why) : container valid m fuel' onPath k = some why := by
  induction fuel generalizing onPath k fuel' why with
  | zero => cases h
  | succ fuel ih =>
    obtain ⟨fuel', rfl⟩ := Nat.exists_eq_add_of_le' hle
    rw [← Nat.add_assoc, container] at *
    split_ifs at h ⊢ with hon
    · exact h
    · rw [node_eq_first] at h ⊢
      exact first_mono (check_mono fun k r => ih (Nat.le_add_left fuel fuel')) _ h

/-- A reason found among spots holds of a value that comes to them. -/
theorem holds_of_first {c : PathKey τ → Option (Option Reason)} {r : Reason}
    (hc : ∀ k ∈ v.refs, ∃ why, c k = some why ∧ Finds valid m [] k why)
    (h : first (check valid c) v.spots = some (some r)) : r.Holds valid m v := by
  obtain ⟨x, hx, hr⟩ := first_eq_some h
  cases x with
  | text s =>
    obtain ⟨rfl, hv⟩ := checkText_eq_some hr
    exact ⟨s, .inl hx, hv⟩
  | number =>
    cases hr
    exact .inl hx
  | ref l =>
    have hl := mem_value_refs.2 hx
    obtain ⟨why, hcl, hf⟩ := hc l hl
    have hwhy : why = some r := Option.some.inj (hcl.symm.trans hr)
    cases r with
    | utf8 =>
      obtain ⟨k, s, hlk, hs, hv⟩ := hf.utf8 hwhy
      exact ⟨s, .of_ref hl hlk hs, hv⟩
    | number =>
      obtain ⟨k, hlk, hn⟩ := hf.number hwhy
      exact .of_ref hl hlk hn
    | cycle => exact ⟨l, hl, sees_nil.1 (hf.cycle hwhy)⟩

/-- Where nothing is found no reason holds. -/
theorem not_holds_of_first {c : PathKey τ → Option (Option Reason)}
    (hc : ∀ k ∈ v.refs, ∃ why, c k = some why ∧ Finds valid m [] k why)
    (h : first (check valid c) v.spots = some none) (r : Reason) : ¬ r.Holds valid m v := by
  rw [first_eq_none_iff] at h
  have hbelow (k) (hk : k ∈ v.refs) : ¬ Sees m.next [] k ∧ ∀ k', Walk.Reaches m.next k k' →
      ∀ x ∈ (m.node k').spots, (∀ s, x = .text s → valid s = true) ∧ x ≠ .number := by
    obtain ⟨why, hck, hf⟩ := hc k hk
    exact hf.clean (Option.some.inj (hck.symm.trans (h _ (mem_value_refs.1 hk))))
  cases r with
  | utf8 =>
    rintro ⟨s, hx | ⟨k, hk, k', hkk', hx⟩, hv⟩
    · cases hv.symm.trans (checkText_eq_none.1 (h _ hx))
    · cases hv.symm.trans (((hbelow k hk).2 k' hkk' _ hx).1 s rfl)
  | number =>
    rintro (hx | ⟨k, hk, k', hkk', hx⟩)
    · cases h _ hx
    · exact ((hbelow k hk).2 k' hkk' _ hx).2 rfl
  | cycle =>
    rintro ⟨k, hk, hloop⟩
    exact (hbelow k hk).1 (sees_nil.2 hloop)

/-- The walk ends, and what it says is so. -/
theorem exists_jsonUnsafe (valid : Text → Bool) (m : Memory τ) (v : Value τ) :
    ∃ why, (∀ fuel, (m.refs v).length < fuel → jsonUnsafe valid m fuel v = some why) ∧
      (why = none → ∀ r, ¬ Reason.Holds valid m v r) ∧ ∀ r, why = some r → r.Holds valid m v := by
  have hends (k) (hk : k ∈ v.refs) : ∃ why, container valid m ((m.refs v).length + 1) [] k = some why ∧
      Finds valid m [] k why := by
    refine finds_container (v := v) (List.mem_append_left _ hk) ?_
    rw [List.toFinset_nil, Finset.sdiff_empty]
    exact Nat.lt_succ_of_le (List.toFinset_card_le _)
  obtain ⟨why, hwhy⟩ :
      ∃ why, first (check valid (container valid m ((m.refs v).length + 1) [])) v.spots = some why := by
    rw [← Option.ne_none_iff_exists']
    refine first_ne_none fun x hx => ?_
    cases x with
    | text s => simp [check, checkText]
    | number => simp [check]
    | ref l =>
      obtain ⟨why, hc, -⟩ := hends l (mem_value_refs.2 hx)
      simp [check, hc]
  refine ⟨why, fun fuel hfuel => ?_, ?_, ?_⟩
  · rw [jsonUnsafe, value_eq_first]
    exact first_mono (check_mono fun k r => container_mono hfuel) _ hwhy
  · rintro rfl
    exact not_holds_of_first hends hwhy
  · rintro r rfl
    exact holds_of_first hends hwhy

/-- Of every value the walk comes to an end: it gives a reason that holds of the value, or none where
none does. -/
theorem jsonUnsafe_spec (valid : Text → Bool) (m : Memory τ) (v : Value τ) :
    ∃ why, (∀ fuel, (m.refs v).length < fuel → jsonUnsafe valid m fuel v = some why) ∧
      (why = none ↔ ∀ r, ¬ Reason.Holds valid m v r) ∧ ∀ r, why = some r → r.Holds valid m v := by
  obtain ⟨why, hwhy, hnone, hsome⟩ := exists_jsonUnsafe valid m v
  refine ⟨why, hwhy, ⟨hnone, fun h => ?_⟩, hsome⟩
  cases why with
  | none => rfl
  | some r => exact absurd (hsome r rfl) (h r)

/-- A reply has the value exactly where nothing in it would be corrupted and `json.Marshal` takes it. -/
theorem acceptDoc_value_iff {J : Type*} (valid : Text → Bool) (m : Memory τ)
    (marshal : Value τ → Except String J) {doc : J} (hfuel : (m.refs v).length < fuel) :
    acceptDoc valid m marshal fuel v = some (.value doc) ↔
      (∀ r, ¬ Reason.Holds valid m v r) ∧ marshal v = .ok doc := by
  obtain ⟨why, hwhy, hnone, hsome⟩ := exists_jsonUnsafe valid m v
  rw [acceptDoc, hwhy fuel hfuel, Option.map_some, Option.some.injEq]
  cases why with
  | some r => exact iff_of_false (by simp) fun h => h.1 r (hsome r rfl)
  | none =>
    rw [and_iff_right (hnone rfl)]
    cases marshal v <;> simp

end Found

/-! ### The order of a map -/

/-- Two nodes are the same, but for the order of the entries of a map with string keys, which are all
different. -/
inductive Node.Reordered : Node τ → Node τ → Prop
  | refl (n : Node τ) : Reordered n n
  | entries (es es' : List (Text × Value τ)) (h : es.Perm es') (hkeys : (es.map Prod.fst).Nodup) :
    Reordered (.entries es) (.entries es')

theorem mergeSort_eq_of_perm {β : Type*} {es es' : List (Text × β)} (h : es.Perm es')
    (hkeys : (es.map Prod.fst).Nodup) :
    (es.mergeSort fun a b => a.1 ≤ b.1) = es'.mergeSort fun a b => a.1 ≤ b.1 := by
  have hsorted (es : List (Text × β)) :
      (es.mergeSort fun a b => a.1 ≤ b.1).Pairwise fun a b => a.1 ≤ b.1 := by
    have h := @List.pairwise_mergeSort (Text × β) (fun a b => a.1 ≤ b.1)
      (fun a b c hab hbc => by simpa using List.le_trans (by simpa using hab) (by simpa using hbc))
      (fun a b => by simpa using List.le_total a.1 b.1) es
    simpa using h
  refine List.Perm.eq_of_pairwise (fun a b ha hb hab hba => ?_) (hsorted es) (hsorted es')
    ((List.mergeSort_perm ..).trans (h.trans (List.mergeSort_perm ..).symm))
  have hb' : b ∈ es := h.mem_iff.2 (List.mem_mergeSort.1 hb)
  exact List.inj_on_of_nodup_map hkeys (List.mem_mergeSort.1 ha) hb' (List.le_antisymm hab hba)

theorem Node.Reordered.spots {n n' : Node τ} (h : n.Reordered n') : n.spots = n'.spots := by
  cases h with
  | refl => rfl
  | entries es es' h hkeys => rw [Node.spots, Node.spots, mergeSort_eq_of_perm h hkeys]

theorem container_reordered [DecidableEq τ] {m m' : Memory τ}
    (h : ∀ k, (m.node k).Reordered (m'.node k)) (fuel : ℕ) (onPath : List (PathKey τ)) (k : PathKey τ) :
    container valid m fuel onPath k = container valid m' fuel onPath k := by
  induction fuel generalizing onPath k with
  | zero => rfl
  | succ fuel ih =>
    have hc : container valid m fuel (k :: onPath) = container valid m' fuel (k :: onPath) := funext (ih _)
    rw [container, container, node_eq_first, node_eq_first, (h k).spots, hc]

/-- The answer does not depend on the order a map with string keys has. -/
theorem jsonUnsafe_perm [DecidableEq τ] (m m' : Memory τ) (h : ∀ k, (m.node k).Reordered (m'.node k))
    (fuel : ℕ) (v : Value τ) : jsonUnsafe valid m fuel v = jsonUnsafe valid m' fuel v := by
  have hc : container valid m fuel [] = container valid m' fuel [] :=
    funext (container_reordered valid h fuel [])
  rw [jsonUnsafe, jsonUnsafe, hc]

/-- A map of two keys: the walk comes to the number before the text, in whichever order they are. -/
def twoKeys (es : List (Text × Value Unit)) : Memory Unit := [(⟨1, 0, ()⟩, .entries es)]

theorem twoKeys_reordered {es es' : List (Text × Value Unit)} (h : es.Perm es')
    (hkeys : (es.map Prod.fst).Nodup) (k : PathKey Unit) :
    ((twoKeys es).node k).Reordered ((twoKeys es').node k) := by
  by_cases hk : k = ⟨1, 0, ()⟩
  · subst hk
    exact .entries es es' h hkeys
  · have hnone (es : List (Text × Value Unit)) : (twoKeys es).lookup k = none := by
      rw [twoKeys, List.lookup_cons, beq_eq_false_iff_ne.2 hk]
      rfl
    rw [Memory.node, Memory.node, hnone, hnone]
    exact .refl _

theorem jsonUnsafe_perm_twoKeys :
    jsonUnsafe (fun s => s.all (· < 128)) (twoKeys [([98], .string [255]), ([97], .big)]) 2 (.map (some 1) ()) =
      jsonUnsafe (fun s => s.all (· < 128)) (twoKeys [([97], .big), ([98], .string [255])]) 2
        (.map (some 1) ()) :=
  jsonUnsafe_perm _ _ _ (twoKeys_reordered (.swap ..) (by decide)) 2 _

end TabnasExpr.Clib
