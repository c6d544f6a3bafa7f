import TabnasExpr.Lib.Store

/-!
# The set of evaluated values in the Go port

During a parse the Go port keeps the values its evaluations have returned, by the address and the length
of what is in them, and does not hand such a value to the evaluator again.  The set holds the values
themselves, so that the collector leaves them alone and their addresses are not given out again.  So it
knows exactly the values the evaluations of the parse returned (`evaluatedSeen_iff_returned`).
-/

namespace TabnasExpr.Go.Evaluated

/-! ## Memory -/

/-- What is allocated: a box, or a backing array with its length. -/
inductive Shape where
  | listRef
  | array (len : ℕ)
  deriving DecidableEq

/-- An object at an address; addresses count elements. -/
structure Object where
  addr : ℕ
  shape : Shape
  deriving DecidableEq

def Object.size (o : Object) : ℕ :=
  match o.shape with
  | .listRef => 1
  | .array len => len

/-- The objects have no address in common. -/
def Object.Apart (o p : Object) : Prop := o.addr + o.size ≤ p.addr ∨ p.addr + p.size ≤ o.addr

/-- A value: a box, a slice of a backing array, or one without an identity. -/
inductive Item where
  | other
  | listRef (b : ℕ)
  | slice (b offset len : ℕ)
  deriving DecidableEq

/-- The objects that are alive, by the number of their allocation. -/
structure Memory where
  objects : Store Object
  apart : ∀ b c o p, objects.cell b = some o → objects.cell c = some p → b ≠ c → o.Apart p

namespace Memory

variable (m : Memory)

/-- A value of live objects. -/
def Present : Item → Prop
  | .other => True
  | .listRef b => ∃ addr, m.objects.cell b = some ⟨addr, .listRef⟩
  | .slice b offset len => ∃ addr n, m.objects.cell b = some ⟨addr, .array n⟩ ∧ offset + len ≤ n

/-- A new object, apart from those that are alive. -/
def alloc (o : Object) (h : ∀ b p, m.objects.cell b = some p → o.Apart p) : Memory where
  objects := (m.objects.alloc o).1
  apart := by
    intro b c p q hb hc hbc
    rw [Store.cell_alloc] at hb hc
    split_ifs at hb hc with hb' hc' hc'
    · exact absurd (hb'.trans hc'.symm) hbc
    · cases hb
      exact h c q hc
    · cases hc
      exact (h b p hb).symm
    · exact m.apart b c p q hb hc hbc

/-- An object is collected. -/
def collect (b : ℕ) : Memory where
  objects := m.objects.drop b
  apart := by
    intro c d p q hc hd hcd
    rw [Store.cell_drop] at hc hd
    split_ifs at hc hd
    exact m.apart c d p q hc hd hcd

end Memory

/-! ## The set -/

/-- `evaluatedKey`. -/
structure EvaluatedKey where
  ptr : ℕ
  n : ℤ
  deriving DecidableEq

/-- The memory, the set (`done`) with the values it holds, and what the evaluations have returned. -/
structure State where
  mem : Memory
  done : List (EvaluatedKey × Item)
  returned : List Item

/-- The object a value is of. -/
def Item.object : Item → Option ℕ
  | .other => none
  | .listRef b | .slice b _ _ => some b

/-- A value that has an identity. -/
def Item.Keyed : Item → Prop
  | .other => False
  | .listRef _ => True
  | .slice _ _ len => len ≠ 0

namespace Memory

/-- `evaluatedIdentity(v)`. -/
def evaluatedIdentity (m : Memory) : Item → Option EvaluatedKey
  | .other => none
  | .listRef b => (m.objects.cell b).map fun o => ⟨o.addr, -1⟩
  | .slice b offset len =>
    if len = 0 then none else (m.objects.cell b).map fun o => ⟨o.addr + offset, len⟩

end Memory

namespace State

variable (s : State)

/-- The state in which a parse begins. -/
def opening (m : Memory) : State := ⟨m, [], []⟩

/-- `_, seen := done[key]`. -/
def evaluatedSeen (v : Item) : Bool :=
  (s.mem.evaluatedIdentity v).any fun key => key ∈ s.done.map Prod.fst

/-- `done[key] = out`. -/
def evaluatedMark (out : Item) : State :=
  match s.mem.evaluatedIdentity out with
  | none => s
  | some key => { s with done := (key, out) :: s.done.filter fun e => e.1 ≠ key }

end State

/-! ## Steps -/

/-- What happens to the memory and the set: an allocation, a collection, and an evaluation that comes to
its value, marks it and returns it. -/
inductive Act where
  | alloc (o : Object)
  | collect (b : ℕ)
  | finish (out : Item)

/-- One step.  What the set holds is not collected; anything else may be. -/
inductive Step : State → Act → State → Prop
  | alloc (s : State) (o : Object) (h : ∀ b p, s.mem.objects.cell b = some p → o.Apart p) :
    Step s (.alloc o) { s with mem := s.mem.alloc o h }
  | collect (s : State) (b : ℕ) (h : ∀ e ∈ s.done, e.2.object ≠ some b) :
    Step s (.collect b) { s with mem := s.mem.collect b }
  | finish (s : State) (out : Item) (h : s.mem.Present out) :
    Step s (.finish out) { s.evaluatedMark out with returned := out :: s.returned }

mutual

/-- What code does that allocates, evaluates and is interrupted by the collector. -/
inductive Does : State → State → Prop
  | nothing (s : State) : Does s s
  | step {s s₁ s' : State} {a : Act} (h : Step s a s₁) (ha : ∀ out, a ≠ .finish out) (rest : Does s₁ s') :
      Does s s'
  | evaluation {s s₁ s' : State} {node out : Item} (h : Evaluates s node s₁ out) (rest : Does s₁ s') :
      Does s s'

/-- `evaluation(rule, ctx, node, resolve)` in a parse, with the value it returns.  The members of a list
are the caller's, and `resolve` is any code. -/
inductive Evaluates : State → Item → State → Item → Prop
  | seen {s : State} {node : Item} (hs : s.evaluatedSeen node = true) : Evaluates s node s node
  | same {s s' : State} {node : Item} (hs : s.evaluatedSeen node = false) (h : Step s (.finish node) s') :
      Evaluates s node s' node
  | list {s s₁ s₂ s' : State} {node : Item} {addr : ℕ} {elems outs : List Item}
      (hs : s.evaluatedSeen node = false) (make : Step s (.alloc ⟨addr, .array elems.length⟩) s₁)
      (helems : EvaluatesAll s₁ elems s₂ outs)
      (h : Step s₂ (.finish (.slice (s.mem.objects.last + 1) 0 elems.length)) s') :
      Evaluates s node s' (.slice (s.mem.objects.last + 1) 0 elems.length)
  | op {s s₁ s₂ s' : State} {node out : Item} {terms reduced : List Item}
      (hs : s.evaluatedSeen node = false) (hterms : EvaluatesAll s terms s₁ reduced)
      (resolve : Does s₁ s₂) (h : Step s₂ (.finish out) s') : Evaluates s node s' out

/-- The members of a list or the terms of an operator, one after another, while code may run. -/
inductive EvaluatesAll : State → List Item → State → List Item → Prop
  | nil (s : State) : EvaluatesAll s [] s []
  | cons {s s₁ s₂ s' : State} {v out : Item} {vs outs : List Item} (h : Evaluates s v s₁ out)
      (between : Does s₁ s₂) (rest : EvaluatesAll s₂ vs s' outs) :
      EvaluatesAll s (v :: vs) s' (out :: outs)

end

/-! ## What the set knows -/

section Identity

variable {m m' : Memory} {v w : Item} {key : EvaluatedKey} {b c : ℕ} {o p : Object}

theorem keyed_iff (hv : m.Present v) : v.Keyed ↔ ∃ key, m.evaluatedIdentity v = some key := by
  cases v with
  | other => simp [Item.Keyed, Memory.evaluatedIdentity]
  | listRef b =>
    obtain ⟨addr, hb⟩ := hv
    simp [Item.Keyed, Memory.evaluatedIdentity, hb]
  | slice b offset len =>
    obtain ⟨addr, n, hb, -⟩ := hv
    by_cases hl : len = 0 <;> simp [Item.Keyed, Memory.evaluatedIdentity, hb, hl]

/-- An address is in one object. -/
theorem eq_of_addr {a : ℕ} (hb : m.objects.cell b = some o) (hc : m.objects.cell c = some p)
    (ho : o.addr ≤ a ∧ a < o.addr + o.size) (hp : p.addr ≤ a ∧ a < p.addr + p.size) : b = c := by
  by_contra hbc
  rcases m.apart b c o p hb hc hbc with h | h <;> omega

/-- Values of one key are the same. -/
theorem eq_of_evaluatedIdentity (hv : m.Present v) (hw : m.Present w)
    (hkv : m.evaluatedIdentity v = some key) (hkw : m.evaluatedIdentity w = some key) : v = w := by
  cases v with
  | other => cases hkv
  | listRef b =>
    obtain ⟨addr, hb⟩ := hv
    simp only [Memory.evaluatedIdentity, hb, Option.map_some, Option.some.injEq] at hkv
    subst hkv
    cases w with
    | other => cases hkw
    | listRef c =>
      obtain ⟨addr', hc⟩ := hw
      simp only [Memory.evaluatedIdentity, hc, Option.map_some, Option.some.injEq,
        EvaluatedKey.mk.injEq, and_true] at hkw
      subst hkw
      rw [eq_of_addr hb hc ⟨le_rfl, by simp [Object.size]⟩ ⟨le_rfl, by simp [Object.size]⟩]
    | slice c offset len =>
      obtain ⟨addr', n, hc, -⟩ := hw
      simp only [Memory.evaluatedIdentity, hc] at hkw
      split_ifs at hkw
      simp only [Option.map_some, Option.some.injEq, EvaluatedKey.mk.injEq] at hkw
      omega
  | slice b offset len =>
    obtain ⟨addr, n, hb, hn⟩ := hv
    simp only [Memory.evaluatedIdentity, hb] at hkv
    split_ifs at hkv with hlen
    simp only [Option.map_some, Option.some.injEq] at hkv
    subst hkv
    cases w with
    | other => cases hkw
    | listRef c =>
      obtain ⟨addr', hc⟩ := hw
      simp only [Memory.evaluatedIdentity, hc, Option.map_some, Option.some.injEq,
        EvaluatedKey.mk.injEq] at hkw
      omega
    | slice c offset' len' =>
      obtain ⟨addr', n', hc, hn'⟩ := hw
      simp only [Memory.evaluatedIdentity, hc] at hkw
      split_ifs at hkw with hlen'
      simp only [Option.map_some, Option.some.injEq, EvaluatedKey.mk.injEq, Int.natCast_inj] at hkw
      obtain ⟨haddr, rfl⟩ := hkw
      have hin : addr ≤ addr + offset ∧ addr + offset < addr + n := by omega
      have hin' : addr' ≤ addr + offset ∧ addr + offset < addr' + n' := by omega
      obtain rfl : b = c := eq_of_addr hb hc hin hin'
      obtain ⟨rfl, rfl⟩ : addr = addr' ∧ n = n' := by simpa using hb.symm.trans hc
      congr 1
      omega

end Identity

section Exact

variable {m m' : Memory} {s s' : State} {v node out : Item} {a : Act}

/-- What a value is depends on the object it is of. -/
theorem present_congr (h : ∀ b, v.object = some b → m'.objects.cell b = m.objects.cell b) :
    (m'.Present v ↔ m.Present v) ∧ m'.evaluatedIdentity v = m.evaluatedIdentity v := by
  cases v with
  | other => exact ⟨Iff.rfl, rfl⟩
  | listRef b | slice b offset len =>
    simp [Memory.Present, Memory.evaluatedIdentity, h b rfl]

theorem exists_cell (hv : m.Present v) {b : ℕ} (hb : v.object = some b) :
    ∃ o, m.objects.cell b = some o := by
  cases v with
  | other => cases hb
  | listRef c =>
    cases hb
    exact ⟨_, hv.choose_spec⟩
  | slice c offset len =>
    cases hb
    obtain ⟨addr, n, hc, -⟩ := hv
    exact ⟨_, hc⟩

/-- The set holds values that were returned, each under its key, and all of them. -/
structure Exact (s : State) : Prop where
  held : ∀ e ∈ s.done, s.mem.Present e.2 ∧ s.mem.evaluatedIdentity e.2 = some e.1 ∧ e.2 ∈ s.returned
  kept : ∀ v ∈ s.returned, v.Keyed → ∃ key, (key, v) ∈ s.done

theorem exact_opening (m : Memory) : Exact (State.opening m) where
  held := by simp [State.opening]
  kept := by simp [State.opening]

/-- Where the objects of the set are left as they are the set stays exact. -/
theorem Exact.of_mem (h : Exact s)
    (hm : ∀ e ∈ s.done, ∀ b, e.2.object = some b → m'.objects.cell b = s.mem.objects.cell b) :
    Exact { s with mem := m' } where
  held e he := by
    obtain ⟨hpresent, hkey⟩ := present_congr (hm e he)
    rw [hpresent, hkey]
    exact h.held e he
  kept := h.kept

theorem Exact.finish (h : Exact s) (hout : s.mem.Present out) :
    Exact { s.evaluatedMark out with returned := out :: s.returned } := by
  cases hkey : s.mem.evaluatedIdentity out with
  | none =>
    have hmark : s.evaluatedMark out = s := by simp [State.evaluatedMark, hkey]
    rw [hmark]
    refine ⟨fun e he => ?_, fun v hv hk => ?_⟩
    · obtain ⟨hp, hi, hr⟩ := h.held e he
      exact ⟨hp, hi, List.mem_cons_of_mem _ hr⟩
    · rcases List.mem_cons.1 hv with rfl | hv
      · obtain ⟨key, hsome⟩ := (keyed_iff hout).1 hk
        rw [hkey] at hsome
        cases hsome
      · exact h.kept v hv hk
  | some key =>
    have hmark : s.evaluatedMark out =
        { s with done := (key, out) :: s.done.filter fun e => e.1 ≠ key } := by
      simp [State.evaluatedMark, hkey]
    rw [hmark]
    refine ⟨fun e he => ?_, fun v hv hk => ?_⟩
    · rcases List.mem_cons.1 he with rfl | he
      · exact ⟨hout, hkey, List.mem_cons_self⟩
      · obtain ⟨hp, hi, hr⟩ := h.held e (List.mem_filter.1 he).1
        exact ⟨hp, hi, List.mem_cons_of_mem _ hr⟩
    · rcases List.mem_cons.1 hv with rfl | hv
      · exact ⟨key, List.mem_cons_self⟩
      · obtain ⟨key', hmem⟩ := h.kept v hv hk
        by_cases hkk : key' = key
        · -- What was held under the key is the value that is held under it now.
          subst hkk
          obtain ⟨hp, hi, -⟩ := h.held _ hmem
          obtain rfl := eq_of_evaluatedIdentity hp hout hi hkey
          exact ⟨key', List.mem_cons_self⟩
        · exact ⟨key', List.mem_cons_of_mem _ (List.mem_filter.2 ⟨hmem, by simpa using hkk⟩)⟩

theorem Exact.step (h : Exact s) (hs : Step s a s') : Exact s' := by
  cases hs with
  | alloc o ho =>
    refine h.of_mem fun e he b hb => ?_
    obtain ⟨p, hp⟩ := exists_cell (h.held e he).1 hb
    exact (Store.cell_alloc_of_some hp).trans hp.symm
  | collect b hb =>
    refine h.of_mem fun e he c hc => ?_
    have hcb : c ≠ b := fun hcb => hb e he (hcb ▸ hc)
    exact (Store.cell_drop ..).trans (if_neg hcb)
  | finish out hout => exact h.finish hout

mutual

theorem Does.exact {s s' : State} (hd : Does s s') (h : Exact s) : Exact s' :=
  match hd with
  | .nothing s => h
  | .step hs _ rest => rest.exact (h.step hs)
  | .evaluation he rest => rest.exact (he.exact h)

theorem Evaluates.exact {s s' : State} {node out : Item} (he : Evaluates s node s' out) (h : Exact s) :
    Exact s' :=
  match he with
  | .seen _ => h
  | .same _ hs => h.step hs
  | .list _ make helems hs => (helems.exact (h.step make)).step hs
  | .op _ hterms resolve hs => (resolve.exact (hterms.exact h)).step hs

theorem EvaluatesAll.exact {s s' : State} {vs outs : List Item} (he : EvaluatesAll s vs s' outs)
    (h : Exact s) : Exact s' :=
  match he with
  | .nil s => h
  | .cons hv between rest => rest.exact (between.exact (hv.exact h))

end

/-- In a parse, whatever is allocated, collected and evaluated, what an evaluation returned stays alive,
and a value with an identity is seen exactly when an evaluation returned it. -/
theorem evaluatedSeen_iff_returned (h : Does (State.opening m) s) :
    (∀ v ∈ s.returned, v.Keyed → s.mem.Present v) ∧
      ∀ v, s.mem.Present v → v.Keyed → (s.evaluatedSeen v = true ↔ v ∈ s.returned) := by
  have hE := h.exact (exact_opening m)
  refine ⟨fun v hv hk => ?_, fun v hp hk => ⟨fun hseen => ?_, fun hv => ?_⟩⟩
  · obtain ⟨key, hmem⟩ := hE.kept v hv hk
    exact (hE.held _ hmem).1
  · obtain ⟨key, hkey⟩ := (keyed_iff hp).1 hk
    simp only [State.evaluatedSeen, hkey, Option.any_some, decide_eq_true_eq] at hseen
    obtain ⟨e, he, rfl⟩ := List.mem_map.1 hseen
    obtain ⟨hpe, hie, hr⟩ := hE.held e he
    rwa [eq_of_evaluatedIdentity hp hpe hkey hie]
  · obtain ⟨key, hmem⟩ := hE.kept v hv hk
    have hkey := (hE.held _ hmem).2.1
    simp only [State.evaluatedSeen, hkey, Option.any_some, decide_eq_true_eq]
    exact List.mem_map_of_mem hmem

end Exact

/-- No object is alive. -/
def Memory.empty : Memory where
  objects := Store.empty
  apart := by simp [Store.empty]

/-- An operation. -/
def operation : Memory := Memory.empty.alloc ⟨0, .array 2⟩ (by simp [Memory.empty, Store.empty])

/-- An operation, and the box it is evaluated to. -/
def operationAndBox : Memory := operation.alloc ⟨2, .listRef⟩ (by
  rintro b p hb
  simp only [operation, Memory.alloc, Store.cell_alloc] at hb
  split_ifs at hb
  · cases hb
    simp [Object.Apart, Object.size]
  · cases hb)

/-- Another operation, at the address of one that was collected. -/
def anotherOperation : Memory := (operationAndBox.collect 1).alloc ⟨0, .array 2⟩ (by
  rintro b p hb
  simp only [Memory.collect, operationAndBox, operation, Memory.alloc, Memory.empty, Store.cell_drop,
    Store.cell_alloc, Store.last_alloc, Store.empty] at hb
  split_ifs at hb
  · cases hb
    simp [Object.Apart, Object.size])

theorem does_anotherOperation :
    Does (State.opening .empty) ⟨anotherOperation, [(⟨2, -1⟩, .listRef 2)], [.listRef 2]⟩ := by
  have hfirst : Step (State.opening .empty) (.alloc ⟨0, .array 2⟩) ⟨operation, [], []⟩ := .alloc ..
  have hbox : Step ⟨operation, [], []⟩ (.alloc ⟨2, .listRef⟩) ⟨operationAndBox, [], []⟩ := .alloc ..
  have hop : Evaluates ⟨operation, [], []⟩ (.slice 1 0 2)
      ⟨operationAndBox, [(⟨2, -1⟩, .listRef 2)], [.listRef 2]⟩ (.listRef 2) :=
    .op rfl (.nil _) (.step hbox (by simp) (.nothing _)) (.finish _ (.listRef 2) ⟨2, rfl⟩)
  have hgone : Step ⟨operationAndBox, [(⟨2, -1⟩, .listRef 2)], [.listRef 2]⟩ (.collect 1)
      ⟨operationAndBox.collect 1, [(⟨2, -1⟩, .listRef 2)], [.listRef 2]⟩ :=
    .collect _ _ (by simp [Item.object])
  have hagain : Step ⟨operationAndBox.collect 1, [(⟨2, -1⟩, .listRef 2)], [.listRef 2]⟩
      (.alloc ⟨0, .array 2⟩) ⟨anotherOperation, [(⟨2, -1⟩, .listRef 2)], [.listRef 2]⟩ := .alloc ..
  exact .step hfirst (by simp) (.evaluation hop (.step hgone (by simp) (.step hagain (by simp) (.nothing _))))

/-- An operation at the address of one that was evaluated is not taken for a value that was returned. -/
theorem evaluatedSeen_iff_returned_reuse :
    let s : State := ⟨anotherOperation, [(⟨2, -1⟩, .listRef 2)], [.listRef 2]⟩
    s.mem.objects.cell 3 = some ⟨0, .array 2⟩ ∧ s.evaluatedSeen (.slice 3 0 2) = false ∧
    (∀ v ∈ s.returned, v.Keyed → s.mem.Present v) ∧
      ∀ v, s.mem.Present v → v.Keyed → (s.evaluatedSeen v = true ↔ v ∈ s.returned) :=
  ⟨rfl, rfl, evaluatedSeen_iff_returned does_anotherOperation⟩

end TabnasExpr.Go.Evaluated
