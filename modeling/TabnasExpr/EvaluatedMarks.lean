import Mathlib.Data.List.Nodup

/-!
# The marks of evaluated values

The Rust port marks each value an evaluation comes to, so that a value handed to it again is
returned as it is.  A mark is the identity of a node, or the address and the length of a buffer; it
does not keep the buffer alive.  The state here is the memory, in which an address in use is not
handed out again, and the marks of one life of the arena; beside them stands what the evaluations
have really returned.
-/

namespace TabnasExpr.Rust.Marks

/-! ## Memory -/

/-- A value: a node by its number, or a shared buffer by the number of its allocation. -/
inductive Item where
  | undefined
  | null
  | scalar
  | node (id : ℕ)
  | shared (birth : ℕ)
  deriving DecidableEq

/-- The values with a buffer. -/
inductive Container where
  | array
  | object
  | listRef
  | mapRef
  deriving DecidableEq

/-- A buffer, at an address, with the values it holds. -/
structure Buffer where
  addr : ℕ
  kind : Container
  elems : List Item
  deriving DecidableEq

/-- The buffers that are alive, by allocation, no two at one address. -/
structure Memory where
  live : List (ℕ × Buffer)
  born : ℕ
  bound : ∀ e ∈ live, e.1 < born
  births : (live.map Prod.fst).Nodup
  apart : (live.map fun e => e.2.addr).Nodup

namespace Memory

variable (m : Memory)

/-- A value is not a buffer that was dropped. -/
def Present : Item → Prop
  | .shared b => b ∈ m.live.map Prod.fst
  | _ => True

instance (v : Item) : Decidable (m.Present v) :=
  match v with
  | .shared b => inferInstanceAs (Decidable (b ∈ m.live.map Prod.fst))
  | .undefined | .null | .scalar | .node _ => isTrue trivial

/-- A live buffer holds another. -/
def Holds (b : ℕ) : Prop := ∃ e ∈ m.live, Item.shared b ∈ e.2.elems

instance (b : ℕ) : Decidable (m.Holds b) :=
  inferInstanceAs (Decidable (∃ e ∈ m.live, Item.shared b ∈ e.2.elems))

/-- A new buffer at an address that is not in use. -/
def alloc (buf : Buffer) (h : buf.addr ∉ m.live.map fun e => e.2.addr) : Memory where
  live := (m.born, buf) :: m.live
  born := m.born + 1
  bound := by
    intro e he
    rcases List.mem_cons.1 he with rfl | he
    · exact Nat.lt_succ_self _
    · exact Nat.lt_succ_of_lt (m.bound e he)
  births := by
    refine List.nodup_cons.2 ⟨fun hmem => ?_, m.births⟩
    obtain ⟨e, he, heq⟩ := List.mem_map.1 hmem
    exact absurd (m.bound e he) (by simp [heq])
  apart := List.nodup_cons.2 ⟨h, m.apart⟩

/-- A buffer is dropped, and its address free again. -/
def drop (b : ℕ) : Memory where
  live := m.live.filter fun e => e.1 ≠ b
  born := m.born
  bound := fun e he => m.bound e (List.mem_of_mem_filter he)
  births := m.births.sublist (List.filter_sublist.map _)
  apart := m.apart.sublist (List.filter_sublist.map _)

end Memory

/-! ## Marks -/

/-- `EvalKey`. -/
inductive EvalKey where
  | node (id : ℕ)
  | shared (addr len : ℕ)
  deriving DecidableEq

/-- The key of a buffer.  An empty array or object has none. -/
def Buffer.key (buf : Buffer) : Option EvalKey :=
  match buf.kind with
  | .array | .object => if buf.elems = [] then none else some (.shared buf.addr buf.elems.length)
  | .listRef | .mapRef => some (.shared buf.addr buf.elems.length)

/-- The memory, the marks (`EVALUATED`), and the values the evaluations have returned. -/
structure State where
  mem : Memory
  evaluated : List EvalKey
  returned : List Item

namespace State

variable (s : State)

/-- The state in which the arena opens. -/
def opening (m : Memory) : State := ⟨m, [], []⟩

/-- `eval_key(value)`. -/
def evalKey : Item → Option EvalKey
  | .node id => some (.node id)
  | .shared b => (s.mem.live.lookup b).bind Buffer.key
  | _ => none

/-- `evaluated_seen(value)`. -/
def evaluatedSeen (v : Item) : Bool := (s.evalKey v).any fun key => s.evaluated.contains key

/-- `evaluated_mark(value)`. -/
def evaluatedMark (v : Item) : State :=
  match s.evalKey v with
  | none => s
  | some key => if key ∈ s.evaluated then s else { s with evaluated := s.evaluated ++ [key] }

/-- A value that is seen was returned. -/
def Fresh : Prop := ∀ v, s.evaluatedSeen v = true → v ∈ s.returned

end State

/-! ## Steps -/

/-- What happens to the memory and the marks: an allocation, a drop, and an evaluation that comes to its
value, marks it and returns it. -/
inductive Act where
  | alloc (buf : Buffer)
  | drop (b : ℕ)
  | finish (out : Item)

/-- One step.  A buffer that another one holds is not dropped. -/
def step (s : State) : Act → Option State
  | .alloc buf =>
    if h : buf.addr ∉ s.mem.live.map (fun e => e.2.addr) ∧ ∀ v ∈ buf.elems, s.mem.Present v then
      some { s with mem := s.mem.alloc buf h.1 }
    else none
  | .drop b =>
    if s.mem.Present (.shared b) ∧ ¬ s.mem.Holds b then some { s with mem := s.mem.drop b } else none
  | .finish out =>
    if s.mem.Present out then
      some { s.evaluatedMark out with returned := out :: s.returned }
    else none

/-- Steps one after another. -/
def run : State → List Act → Option State
  | s, [] => some s
  | s, a :: as => (step s a).bind fun s => run s as

mutual

/-- What code does that allocates, drops and evaluates. -/
inductive Does : State → List Act → State → Prop
  | nothing (s : State) : Does s [] s
  | alloc {s s₁ s' : State} {buf : Buffer} {as : List Act} (h : step s (.alloc buf) = some s₁)
      (rest : Does s₁ as s') : Does s (.alloc buf :: as) s'
  | drop {s s₁ s' : State} {b : ℕ} {as : List Act} (h : step s (.drop b) = some s₁)
      (rest : Does s₁ as s') : Does s (.drop b :: as) s'
  | evaluation {s s₁ s' : State} {v out : Item} {as bs : List Act} (h : Evaluates s v as s₁ out)
      (rest : Does s₁ bs s') : Does s (as ++ bs) s'

/-- `evaluation(site, value, evaluate)`, with the value it returns.  The terms of a node are the
arena's, and the callback is any code. -/
inductive Evaluates : State → Item → List Act → State → Item → Prop
  | nothing {s : State} {v : Item} (hv : v = .undefined ∨ v = .null) : Evaluates s v [] s .null
  | seen {s : State} {v : Item} (hv : v ≠ .undefined ∧ v ≠ .null) (hs : s.evaluatedSeen v = true) :
      Evaluates s v [] s v
  | op {s s₁ s₂ s' : State} {id : ℕ} {terms reduced : List Item} {out : Item} {as bs : List Act}
      (hs : s.evaluatedSeen (.node id) = false) (hterms : EvaluatesAll s terms as s₁ reduced)
      (evaluate : Does s₁ bs s₂) (h : step s₂ (.finish out) = some s') :
      Evaluates s (.node id) (as ++ (bs ++ [.finish out])) s' out
  | array {s s₁ s₂ s' : State} {b addr : ℕ} {buf : Buffer} {outs : List Item} {as : List Act}
      (hs : s.evaluatedSeen (.shared b) = false) (hb : s.mem.live.lookup b = some buf)
      (hk : buf.kind = .array) (helems : EvaluatesAll s buf.elems as s₁ outs)
      (halloc : step s₁ (.alloc ⟨addr, .array, outs⟩) = some s₂)
      (h : step s₂ (.finish (.shared s₁.mem.born)) = some s') :
      Evaluates s (.shared b)
        (as ++ [.alloc ⟨addr, .array, outs⟩, .finish (.shared s₁.mem.born)]) s' (.shared s₁.mem.born)
  | other {s s' : State} {v : Item} (hv : v ≠ .undefined ∧ v ≠ .null) (hs : s.evaluatedSeen v = false)
      (hk : ∀ b buf, v = .shared b → s.mem.live.lookup b = some buf → buf.kind ≠ .array)
      (h : step s (.finish v) = some s') : Evaluates s v [.finish v] s' v

/-- The members of a list, one after another. -/
inductive EvaluatesAll : State → List Item → List Act → State → List Item → Prop
  | nil (s : State) : EvaluatesAll s [] [] s []
  | cons {s s₁ s' : State} {v out : Item} {vs outs : List Item} {as bs : List Act}
      (h : Evaluates s v as s₁ out) (rest : EvaluatesAll s₁ vs bs s' outs) :
      EvaluatesAll s (v :: vs) (as ++ bs) s' (out :: outs)

end

/-! ## Runs -/

theorem run_append (s : State) (as bs : List Act) :
    run s (as ++ bs) = (run s as).bind fun s => run s bs := by
  induction as generalizing s with
  | nil => rfl
  | cons a as ih => cases ha : step s a <;> simp [run, ha, ih]

theorem run_cons_of_step {s s₁ : State} {a : Act} {as : List Act} (h : step s a = some s₁) :
    run s (a :: as) = run s₁ as := by
  simp [run, h]

mutual

theorem Does.run {s s' : State} {as : List Act} : Does s as s' → run s as = some s'
  | .nothing s => rfl
  | .alloc h rest => (run_cons_of_step h).trans rest.run
  | .drop h rest => (run_cons_of_step h).trans rest.run
  | .evaluation h rest => by simp [run_append, h.run, rest.run]

theorem Evaluates.run {s s' : State} {v out : Item} {as : List Act} :
    Evaluates s v as s' out → run s as = some s'
  | .nothing _ => rfl
  | .seen _ _ => rfl
  | .op _ hterms evaluate h => by
    simp [run_append, hterms.run, evaluate.run, Marks.run, h]
  | .array _ _ _ helems halloc h => by
    simp [run_append, helems.run, Marks.run, halloc, h]
  | .other _ _ _ h => by simp [Marks.run, h]

theorem EvaluatesAll.run {s s' : State} {vs outs : List Item} {as : List Act} :
    EvaluatesAll s vs as s' outs → run s as = some s'
  | .nil s => rfl
  | .cons h rest => by simp [run_append, h.run, rest.run]

end

/-! ## What one step keeps -/

theorem step_alloc {s s' : State} {buf : Buffer} (h : step s (.alloc buf) = some s') :
    ∃ hb, s' = { s with mem := s.mem.alloc buf hb } := by
  simp only [step] at h
  split_ifs at h with hb
  exact ⟨hb.1, (Option.some.inj h).symm⟩

theorem step_drop {s s' : State} {b : ℕ} (h : step s (.drop b) = some s') :
    s' = { s with mem := s.mem.drop b } := by
  simp only [step] at h
  split_ifs at h
  exact (Option.some.inj h).symm

theorem step_finish {s s' : State} {out : Item} (h : step s (.finish out) = some s') :
    s.mem.Present out ∧ s' = { s.evaluatedMark out with returned := out :: s.returned } := by
  simp only [step] at h
  split_ifs at h with hp
  exact ⟨hp, (Option.some.inj h).symm⟩

theorem lookup_eq_some_iff {m : Memory} {b : ℕ} {buf : Buffer} :
    m.live.lookup b = some buf ↔ (b, buf) ∈ m.live := by
  have hmem : ∀ {buf}, m.live.lookup b = some buf → (b, buf) ∈ m.live := by
    intro buf h
    obtain ⟨l₁, l₂, hl, -⟩ := List.lookup_eq_some_iff.1 h
    simp [hl]
  refine ⟨hmem, fun h => ?_⟩
  cases hl : m.live.lookup b with
  | none => simpa using List.lookup_eq_none_iff.1 hl _ h
  | some buf' => rw [(Prod.mk.inj (List.inj_on_of_nodup_map m.births (hmem hl) h rfl)).2]

/-- A buffer's key names its address. -/
theorem Buffer.addr_of_key {buf : Buffer} {key : EvalKey} (h : buf.key = some key) :
    ∃ len, key = .shared buf.addr len := by
  refine ⟨buf.elems.length, ?_⟩
  unfold Buffer.key at h
  grind

/-- At any one time no two values have one key. -/
theorem evalKey_inj {s : State} {v w : Item} {key : EvalKey} (hv : s.evalKey v = some key)
    (hw : s.evalKey w = some key) : v = w := by
  have hshared : ∀ {b : ℕ} {key : EvalKey}, s.evalKey (.shared b) = some key →
      ∃ buf len, (b, buf) ∈ s.mem.live ∧ key = .shared buf.addr len := by
    intro b key h
    obtain ⟨buf, hb, hkey⟩ := Option.bind_eq_some_iff.1 h
    obtain ⟨len, hlen⟩ := Buffer.addr_of_key hkey
    exact ⟨buf, len, lookup_eq_some_iff.1 hb, hlen⟩
  cases v with
  | node i =>
    cases w with
    | node j => exact congrArg Item.node (EvalKey.node.inj (Option.some.inj (hv.trans hw.symm)))
    | shared b =>
      obtain ⟨buf, len, -, rfl⟩ := hshared hw
      simp [State.evalKey] at hv
    | _ => simp [State.evalKey] at hw
  | shared b =>
    obtain ⟨buf, len, hb, rfl⟩ := hshared hv
    cases w with
    | node j => simp [State.evalKey] at hw
    | shared c =>
      obtain ⟨buf', len', hc, heq⟩ := hshared hw
      have := List.inj_on_of_nodup_map s.mem.apart hb hc (EvalKey.shared.inj heq).1
      rw [(Prod.mk.inj this).1]
    | _ => simp [State.evalKey] at hw
  | _ => simp [State.evalKey] at hv

/-- An allocation hands out an address, with a length, that a mark is by. -/
def Act.Reuses (s : State) : Act → Prop
  | .alloc buf => ∃ key ∈ buf.key, key ∈ s.evaluated
  | _ => False

/-- The values returned so far have been allocated. -/
def State.Known (s : State) : Prop := ∀ b, Item.shared b ∈ s.returned → b < s.mem.born

theorem evaluatedSeen_iff {s : State} {v : Item} :
    s.evaluatedSeen v = true ↔ ∃ key, s.evalKey v = some key ∧ key ∈ s.evaluated := by
  cases h : s.evalKey v <;> simp [State.evaluatedSeen, h]

theorem mem_evaluatedMark {s : State} {v : Item} {key : EvalKey}
    (h : key ∈ (s.evaluatedMark v).evaluated) : key ∈ s.evaluated ∨ s.evalKey v = some key := by
  unfold State.evaluatedMark at h
  cases hv : s.evalKey v with
  | none => exact .inl (by simpa [hv] using h)
  | some k =>
    simp only [hv] at h
    split_ifs at h
    · exact .inl h
    · rcases List.mem_append.1 h with h | h
      · exact .inl h
      · exact .inr (by rw [List.mem_singleton.1 h])

theorem mem_evaluatedMark_mem (s : State) (v : Item) : (s.evaluatedMark v).mem = s.mem := by
  unfold State.evaluatedMark
  cases s.evalKey v with
  | none => rfl
  | some k =>
    simp only
    split_ifs <;> rfl

theorem evalKey_congr {s s' : State} (h : s'.mem = s.mem) (v : Item) : s'.evalKey v = s.evalKey v := by
  cases v <;> simp [State.evalKey, h]

/-- A step that does not reuse a mark keeps the marks fresh. -/
theorem Fresh.step {s s' : State} {a : Act} (hf : s.Fresh) (hr : ¬ a.Reuses s)
    (h : step s a = some s') : s'.Fresh := by
  cases a with
  | alloc buf =>
    obtain ⟨hb, rfl⟩ := step_alloc h
    intro v hv
    obtain ⟨key, hkey, hmem⟩ := evaluatedSeen_iff.1 hv
    refine hf v (evaluatedSeen_iff.2 ⟨key, ?_, hmem⟩)
    cases v with
    | shared b =>
      by_cases hb : b = s.mem.born
      · subst hb
        exact absurd ⟨key, by simpa [State.evalKey, Memory.alloc] using hkey, hmem⟩ hr
      · have hb : (b == s.mem.born) = false := by simpa using hb
        simpa [State.evalKey, Memory.alloc, List.lookup_cons, hb] using hkey
    | _ => exact hkey
  | drop c =>
    obtain rfl := step_drop h
    intro v hv
    obtain ⟨key, hkey, hmem⟩ := evaluatedSeen_iff.1 hv
    refine hf v (evaluatedSeen_iff.2 ⟨key, ?_, hmem⟩)
    cases v with
    | shared b =>
      obtain ⟨buf, hb, hbuf⟩ := Option.bind_eq_some_iff.1 hkey
      have hlive : (b, buf) ∈ s.mem.live := List.mem_of_mem_filter (lookup_eq_some_iff.1 hb)
      exact Option.bind_eq_some_iff.2 ⟨buf, lookup_eq_some_iff.2 hlive, hbuf⟩
    | _ => exact hkey
  | finish out =>
    obtain ⟨-, rfl⟩ := step_finish h
    intro v hv
    obtain ⟨key, hkey, hmem⟩ := evaluatedSeen_iff.1 hv
    have hsame : ({ s.evaluatedMark out with returned := out :: s.returned } : State).mem = s.mem :=
      mem_evaluatedMark_mem s out
    rw [evalKey_congr hsame] at hkey
    rcases mem_evaluatedMark hmem with hmem | hout
    · exact List.mem_cons_of_mem _ (hf v (evaluatedSeen_iff.2 ⟨key, hkey, hmem⟩))
    · rw [evalKey_inj hkey hout]
      exact List.mem_cons_self

theorem Known.step {s s' : State} {a : Act} (hk : s.Known) (h : step s a = some s') : s'.Known := by
  cases a with
  | alloc buf =>
    obtain ⟨hb, rfl⟩ := step_alloc h
    exact fun b hb => Nat.lt_succ_of_lt (hk b hb)
  | drop c =>
    obtain rfl := step_drop h
    exact hk
  | finish out =>
    obtain ⟨hp, rfl⟩ := step_finish h
    intro b hb
    have hborn : s.mem.born = (s.evaluatedMark out).mem.born := by rw [mem_evaluatedMark_mem]
    rcases List.mem_cons.1 hb with rfl | hb
    · obtain ⟨e, he, rfl⟩ := List.mem_map.1 hp
      exact hborn ▸ s.mem.bound e he
    · exact hborn ▸ hk b hb

/-- An allocation that reuses a mark makes a value seen that no evaluation returned. -/
theorem not_fresh_of_reuses {s s' : State} {a : Act} (hk : s.Known) (hr : a.Reuses s)
    (h : step s a = some s') : ¬ s'.Fresh := by
  cases a with
  | alloc buf =>
    obtain ⟨key, hkey, hmem⟩ := hr
    obtain ⟨hb, rfl⟩ := step_alloc h
    intro hf
    have hseen := hf (.shared s.mem.born) (evaluatedSeen_iff.2
      ⟨key, by simpa [State.evalKey, Memory.alloc] using hkey, hmem⟩)
    exact absurd (hk _ hseen) (Nat.lt_irrefl _)
  | drop b => exact hr.elim
  | finish out => exact hr.elim

/-! ## What a run keeps -/

theorem Known.run {s s' : State} {as : List Act} (hk : s.Known) (h : run s as = some s') :
    s'.Known := by
  induction as generalizing s with
  | nil =>
    obtain rfl := Option.some.inj h
    exact hk
  | cons a as ih =>
    obtain ⟨s₁, ha, has⟩ := Option.bind_eq_some_iff.1 h
    exact ih (Known.step hk ha) has

/-- No step of a run hands out an address, with a length, that a mark is by. -/
def NoReuse (s : State) (as : List Act) : Prop :=
  ∀ pre a s₁, pre ++ [a] <+: as → run s pre = some s₁ → ¬ a.Reuses s₁

theorem Fresh.run {s s' : State} {as : List Act} (hf : s.Fresh) (hr : NoReuse s as)
    (h : run s as = some s') : s'.Fresh := by
  induction as generalizing s with
  | nil =>
    obtain rfl := Option.some.inj h
    exact hf
  | cons a as ih =>
    obtain ⟨s₁, ha, has⟩ := Option.bind_eq_some_iff.1 h
    refine ih (Fresh.step hf (hr [] a s (by simp) rfl) ha) (fun pre a' s₂ hpre hrun => ?_) has
    exact hr (a :: pre) a' s₂ (by simpa using hpre) ((run_cons_of_step ha).trans hrun)

/-- In a life of the arena every value that is seen was returned by an evaluation, in every state
the code comes to, exactly when no allocation hands out an address, with a length, that a mark is by. -/
theorem fresh_iff_noReuse {m : Memory} {as : List Act} {s' : State} (h : Does (.opening m) as s') :
    (∀ pre s, pre <+: as → run (.opening m) pre = some s → s.Fresh) ↔ NoReuse (.opening m) as := by
  have hknown : (State.opening m).Known := fun b hb => by simp [State.opening] at hb
  have hfresh : (State.opening m).Fresh := fun v hv => by
    obtain ⟨key, -, hmem⟩ := evaluatedSeen_iff.1 hv
    simp [State.opening] at hmem
  constructor
  · intro hall pre a s hpre hs hr
    obtain ⟨bs, hbs⟩ := hpre
    have hrun : run (.opening m) (pre ++ [a] ++ bs) = some s' := hbs ▸ h.run
    rw [List.append_assoc, run_append, hs, Option.bind_some] at hrun
    obtain ⟨s₁, ha, -⟩ := Option.bind_eq_some_iff.1 hrun
    have hs₁ : run (.opening m) (pre ++ [a]) = some s₁ := by simp [run_append, hs, Marks.run, ha]
    exact not_fresh_of_reuses (Known.run hknown hs) hr ha (hall _ s₁ ⟨bs, hbs⟩ hs₁)
  · intro hr pre s hpre hs
    exact Fresh.run hfresh (fun pre' a s₁ hpre' => hr pre' a s₁ (hpre'.trans hpre)) hs

/-! ## A mark that outlives its value -/

/-- Memory with one array of one element. -/
def oneArray : Memory :=
  ⟨[(0, ⟨100, .array, [.null]⟩)], 1, by simp, by simp, by simp⟩

/-- The array is evaluated into a new one, which is dropped, and another array of one element is put
where it was. -/
def reuse : List Act :=
  [.alloc ⟨101, .array, [.null]⟩, .finish (.shared 1), .drop 1, .alloc ⟨101, .array, [.scalar]⟩]

/-- The state this comes to. -/
def reused : State :=
  ⟨⟨[(2, ⟨101, .array, [.scalar]⟩), (0, ⟨100, .array, [.null]⟩)], 3, by simp, by simp, by simp⟩,
    [.shared 101 1], [.shared 1]⟩

theorem does_reuse : Does (.opening oneArray) reuse reused := by
  have helems : EvaluatesAll (.opening oneArray) [.null] [] (.opening oneArray) [.null] :=
    .cons (.nothing (.inr rfl)) (.nil _)
  have halloc : step (.opening oneArray) (.alloc ⟨101, .array, [.null]⟩) = some _ := rfl
  have hev := Evaluates.array (b := 0) (s := .opening oneArray) rfl rfl rfl helems halloc rfl
  exact .evaluation hev (.drop rfl (.alloc rfl (.nothing _)))

theorem fresh_iff_noReuse_reuse :
    (∀ pre s, pre <+: reuse → run (.opening oneArray) pre = some s → s.Fresh) ↔
      NoReuse (.opening oneArray) reuse :=
  fresh_iff_noReuse does_reuse

/-- The other array is taken for one that was evaluated. -/
theorem reuse_not_fresh : Does (.opening oneArray) reuse reused ∧
    reused.evaluatedSeen (.shared 2) = true ∧ Item.shared 2 ∉ reused.returned :=
  ⟨does_reuse, by decide, by decide⟩

end TabnasExpr.Rust.Marks
