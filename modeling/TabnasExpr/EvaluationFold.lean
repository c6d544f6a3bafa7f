import Mathlib.Algebra.GroupWithZero.Nat
import Mathlib.Tactic.Tauto
import TabnasExpr.Defaults
import TabnasExpr.Ts.Evaluation

/-!
# Stand-alone evaluation is a fold over unseen trees

Outside a parse, `evaluation` reduces a tree from the leaves up and from left to right.  It comes to the
same as the fold of the callback exactly when no expression and no list of the tree is in the set
`EVALUATED` as the fold reaches it.  What earlier calls returned stays in the set, so a tree that is the
result of one reduction is not reduced by the next.
-/

namespace TabnasExpr.Ts

variable {σ α : Type*}

/-! ## Trees in the objects, and their fold -/

/-- A finite tree of expressions and lists, with their identities. -/
inductive SExpr (α : Type*) where
  | leaf (v : Value α)
  | expr (id : ℕ) (op : Op) (terms : List (SExpr α))
  | list (id : ℕ) (xs : List (SExpr α))

namespace SExpr

/-- The value a tree is held by. -/
def value : SExpr α → Value α
  | leaf v => v
  | expr i _ _ => .object i
  | list i _ => .object i

mutual

/-- The number of expressions and lists in a tree. -/
def size : SExpr α → ℕ
  | leaf _ => 0
  | expr _ _ ts => sizes ts + 1
  | list _ xs => sizes xs + 1

/-- The number of expressions and lists in the trees of a list. -/
def sizes : List (SExpr α) → ℕ
  | [] => 0
  | t :: ts => size t + sizes ts

/-- The depth of a tree. -/
def height : SExpr α → ℕ
  | leaf _ => 0
  | expr _ _ ts => heights ts
  | list _ xs => heights xs

/-- One more than the depth of the deepest tree. -/
def heights : List (SExpr α) → ℕ
  | [] => 0
  | t :: ts => max (height t + 1) (heights ts)

/-- The operators of a tree, each after those of its terms. -/
def ops : SExpr α → List Op
  | leaf _ => []
  | expr _ op ts => opsAll ts ++ [op]
  | list _ xs => opsAll xs

/-- The operators of the trees of a list. -/
def opsAll : List (SExpr α) → List Op
  | [] => []
  | t :: ts => ops t ++ opsAll ts

/-- The expressions and lists of a tree. -/
def arrays : SExpr α → List ℕ
  | leaf _ => []
  | expr i _ ts => i :: arraysAll ts
  | list i xs => i :: arraysAll xs

/-- The expressions and lists of the trees of a list. -/
def arraysAll : List (SExpr α) → List ℕ
  | [] => []
  | t :: ts => arrays t ++ arraysAll ts

/-- The objects that stand at the leaves of a tree. -/
def leaves : SExpr α → List ℕ
  | leaf v => v.id?.toList
  | expr _ _ ts => leavesAll ts
  | list _ xs => leavesAll xs

/-- The objects that stand at the leaves of the trees of a list. -/
def leavesAll : List (SExpr α) → List ℕ
  | [] => []
  | t :: ts => leaves t ++ leavesAll ts

/-- The objects hold a tree. -/
def Holds (h : Store (Object α)) : SExpr α → Prop
  | leaf (.object i) => ∃ ms, h.cell i = some (.other ms)
  | leaf _ => True
  | expr i op ts => h.cell i = some (.expr op (ts.map value)) ∧ HoldsAll h ts
  | list i xs => h.cell i = some (.list (xs.map value)) ∧ HoldsAll h xs

/-- The objects hold the trees of a list. -/
def HoldsAll (h : Store (Object α)) : List (SExpr α) → Prop
  | [] => True
  | t :: ts => Holds h t ∧ HoldsAll h ts

end

mutual

/-- The fold of a callback over a tree, from the leaves up and from left to right: a list becomes a new
array, and what is neither an expression nor a list stays as it is. -/
def fold (E : Evaluator σ α) : SExpr α → World σ α → World σ α × Value α
  | leaf v, w => (w, v.orNull)
  | expr _ op ts, w =>
    let r := foldAll E ts w
    r.1.call E op r.2
  | list _ xs, w =>
    let r := foldAll E xs w
    r.1.array r.2

/-- The folds over the trees of a list, one after another. -/
def foldAll (E : Evaluator σ α) : List (SExpr α) → World σ α → World σ α × List (Value α)
  | [], w => (w, [])
  | t :: ts, w =>
    let r := fold E t w
    let rs := foldAll E ts r.1
    (rs.1, r.2 :: rs.2)

end

/-- The objects a tree is made of. -/
def ids (t : SExpr α) : List ℕ := t.arrays ++ t.leaves

end SExpr

open SExpr

/-- The callback leaves these objects as they are. -/
def Spares (E : Evaluator σ α) (ids : List ℕ) : Prop :=
  ∀ op vs h env, ∀ i ∈ ids, ∀ c, h.cell i = some c → (E op vs h env).1.cell i = some c

/-- An object is neither among those evaluated before the call nor among the values of the call so
far. -/
def Unseen (before : List ℕ) (w : World σ α) (i : ℕ) : Prop := i ∉ before ∧ i ∉ w.produced

instance (before : List ℕ) (w : World σ α) (i : ℕ) : Decidable (Unseen before w i) :=
  inferInstanceAs (Decidable (_ ∧ _))

mutual

/-- The fold reaches no expression and no list of the tree that was evaluated before. -/
def Clean (E : Evaluator σ α) (before : List ℕ) : SExpr α → World σ α → Prop
  | leaf _, _ => True
  | expr i _ ts, w => Unseen before w i ∧ CleanAll E before ts w
  | list i xs, w => Unseen before w i ∧ CleanAll E before xs w

/-- The same for the trees of a list. -/
def CleanAll (E : Evaluator σ α) (before : List ℕ) : List (SExpr α) → World σ α → Prop
  | [], _ => True
  | t :: ts, w => Clean E before t w ∧ CleanAll E before ts (fold E t w).1

end

variable {E : Evaluator σ α} {before I : List ℕ} {w : World σ α} {s s' : State σ α}

/-! ## What the fold adds to the trace -/

@[simp] theorem trace_call (op : Op) (vs : List (Value α)) :
    (w.call E op vs).1.trace = w.trace ++ [.evaluated op vs (w.call E op vs).2] := rfl

@[simp] theorem trace_array (vs : List (Value α)) :
    (w.array vs).1.trace = w.trace ++ [.mapped vs (w.array vs).2] := rfl

theorem calls_eq {w' : World σ α} {e : Event α} (h : w'.trace = w.trace ++ [e]) :
    w'.calls = w.calls ++ e.called.toList := by
  simp only [World.calls, h, List.filterMap_append]
  cases hc : e.called <;> simp [hc]

theorem produced_eq {w' : World σ α} {e : Event α} (h : w'.trace = w.trace ++ [e]) :
    w'.produced = w.produced ++ e.value.id?.toList := by
  simp only [World.produced, h, List.filterMap_append]
  cases hc : e.value.id? <;> simp [hc]

mutual

/-- The fold comes to one value for every expression and every list of the tree. -/
theorem length_fold : ∀ (t : SExpr α) (w : World σ α),
    (fold E t w).1.trace.length = w.trace.length + t.size
  | leaf v, w => by simp [fold, size]
  | expr i op ts, w => by
    simp [fold, size, length_foldAll ts w]
    omega
  | list i xs, w => by
    simp [fold, size, length_foldAll xs w]
    omega

theorem length_foldAll : ∀ (ts : List (SExpr α)) (w : World σ α),
    (foldAll E ts w).1.trace.length = w.trace.length + sizes ts
  | [], w => by simp [foldAll, sizes]
  | t :: ts, w => by
    simp only [foldAll, sizes, length_foldAll ts, length_fold t]
    omega

end

mutual

/-- The fold calls the callback once for every operator of the tree. -/
theorem calls_fold : ∀ (t : SExpr α) (w : World σ α), (fold E t w).1.calls = w.calls ++ t.ops
  | leaf v, w => by simp [fold, ops]
  | expr i op ts, w => by
    simp [fold, ops, calls_eq (trace_call _ _), Event.called, calls_foldAll ts w]
  | list i xs, w => by
    simp [fold, ops, calls_eq (trace_array _), Event.called, calls_foldAll xs w]

theorem calls_foldAll : ∀ (ts : List (SExpr α)) (w : World σ α),
    (foldAll E ts w).1.calls = w.calls ++ opsAll ts
  | [], w => by simp [foldAll, opsAll]
  | t :: ts, w => by simp [foldAll, opsAll, calls_foldAll ts, calls_fold t]

end

/-! ## Objects that stay as they are -/

/-- These objects have the same content after as before. -/
def Kept (I : List ℕ) (h h' : Store (Object α)) : Prop :=
  ∀ i ∈ I, ∀ c, h.cell i = some c → h'.cell i = some c

namespace Kept

variable {h h' h'' : Store (Object α)}

theorem refl : Kept I h h := fun _ _ _ hc => hc

theorem trans (a : Kept I h h') (b : Kept I h' h'') : Kept I h h'' :=
  fun i hi c hc => b i hi c (a i hi c hc)

theorem call (hE : Spares E I) (op : Op) (vs : List (Value α)) :
    Kept I w.objects (w.call E op vs).1.objects :=
  fun i hi c hc => hE op vs w.objects w.env i hi c hc

theorem array (vs : List (Value α)) : Kept I w.objects (w.array vs).1.objects :=
  fun _ _ _ hc => Store.cell_alloc_of_some hc

end Kept

/-- The expressions, lists and leaf objects of a tree are among these. -/
structure Inside (A L : List ℕ) (arrays leaves : List ℕ) : Prop where
  array : ∀ i ∈ arrays, i ∈ A
  leaf : ∀ i ∈ leaves, i ∈ L

theorem Inside.left {A L as bs ls ms : List ℕ} (h : Inside A L (as ++ bs) (ls ++ ms)) :
    Inside A L as ls :=
  ⟨fun i hi => h.array i (by simp [hi]), fun i hi => h.leaf i (by simp [hi])⟩

theorem Inside.right {A L as bs ls ms : List ℕ} (h : Inside A L (as ++ bs) (ls ++ ms)) :
    Inside A L bs ms :=
  ⟨fun i hi => h.array i (by simp [hi]), fun i hi => h.leaf i (by simp [hi])⟩

theorem Inside.tail {A L as ls : List ℕ} {i : ℕ} (h : Inside A L (i :: as) ls) : Inside A L as ls :=
  ⟨fun j hj => h.array j (by simp [hj]), h.leaf⟩

variable {A L : List ℕ}

mutual

/-- A tree is still there when its objects are as they were. -/
theorem holds_of_kept {h h' : Store (Object α)} (hk : Kept (A ++ L) h h') :
    ∀ t : SExpr α, Inside A L t.arrays t.leaves → Holds h t → Holds h' t
  | .leaf (.object i), hi, ⟨ms, hms⟩ =>
    ⟨ms, hk i (by simp [hi.leaf i (by simp [leaves, Value.id?])]) _ hms⟩
  | .leaf .undefined, _, _ => trivial
  | .leaf .null, _, _ => trivial
  | .leaf (.scalar _), _, _ => trivial
  | .expr i op ts, hi, ⟨hc, hts⟩ =>
    ⟨hk i (by simp [hi.array i (by simp [arrays])]) _ hc, holdsAll_of_kept hk ts hi.tail hts⟩
  | .list i xs, hi, ⟨hc, hxs⟩ =>
    ⟨hk i (by simp [hi.array i (by simp [arrays])]) _ hc, holdsAll_of_kept hk xs hi.tail hxs⟩

theorem holdsAll_of_kept {h h' : Store (Object α)} (hk : Kept (A ++ L) h h') :
    ∀ ts : List (SExpr α), Inside A L (arraysAll ts) (leavesAll ts) → HoldsAll h ts → HoldsAll h' ts
  | [], _, _ => trivial
  | t :: ts, hi, ⟨ht, hts⟩ => ⟨holds_of_kept hk t hi.left ht, holdsAll_of_kept hk ts hi.right hts⟩

end

mutual

/-- An object at a leaf is neither an expression nor a list. -/
theorem other_of_mem_leaves {h : Store (Object α)} {i : ℕ} :
    ∀ t : SExpr α, Holds h t → i ∈ t.leaves → ∃ ms, h.cell i = some (.other ms)
  | .leaf (.object j), ht, hi => by
    simp only [leaves, Value.id?, Option.toList_some, List.mem_singleton] at hi
    exact hi ▸ ht
  | .leaf .undefined, _, hi => by simp [leaves, Value.id?] at hi
  | .leaf .null, _, hi => by simp [leaves, Value.id?] at hi
  | .leaf (.scalar _), _, hi => by simp [leaves, Value.id?] at hi
  | .expr _ _ ts, ht, hi => other_of_mem_leavesAll ts ht.2 hi
  | .list _ xs, ht, hi => other_of_mem_leavesAll xs ht.2 hi

theorem other_of_mem_leavesAll {h : Store (Object α)} {i : ℕ} :
    ∀ ts : List (SExpr α), HoldsAll h ts → i ∈ leavesAll ts → ∃ ms, h.cell i = some (.other ms)
  | [], _, hi => by simp [leavesAll] at hi
  | t :: ts, ⟨ht, hts⟩, hi => by
    rcases List.mem_append.1 hi with hi | hi
    · exact other_of_mem_leaves t ht hi
    · exact other_of_mem_leavesAll ts hts hi

end

mutual

/-- An expression or a list of a tree is no other object. -/
theorem array_of_mem_arrays {h : Store (Object α)} {i : ℕ} :
    ∀ t : SExpr α, Holds h t → i ∈ t.arrays → ∃ c, h.cell i = some c ∧ ∀ ms, c ≠ .other ms
  | .leaf _, _, hi => by simp [arrays] at hi
  | .expr j op ts, ht, hi => by
    rcases List.mem_cons.1 hi with rfl | hi
    · exact ⟨_, ht.1, by simp⟩
    · exact array_of_mem_arraysAll ts ht.2 hi
  | .list j xs, ht, hi => by
    rcases List.mem_cons.1 hi with rfl | hi
    · exact ⟨_, ht.1, by simp⟩
    · exact array_of_mem_arraysAll xs ht.2 hi

theorem array_of_mem_arraysAll {h : Store (Object α)} {i : ℕ} :
    ∀ ts : List (SExpr α), HoldsAll h ts → i ∈ arraysAll ts →
      ∃ c, h.cell i = some c ∧ ∀ ms, c ≠ .other ms
  | [], _, hi => by simp [arraysAll] at hi
  | t :: ts, ⟨ht, hts⟩, hi => by
    rcases List.mem_append.1 hi with hi | hi
    · exact array_of_mem_arrays t ht hi
    · exact array_of_mem_arraysAll ts hts hi

end

/-! ## What a call of `evaluation` comes to -/

/-- Of these objects, the set holds those it held before the call and those among the values of the call
so far. -/
def Marked (before A : List ℕ) (s : State σ α) : Prop :=
  ∀ i ∈ A, (i ∈ s.evaluated ↔ i ∈ before ∨ i ∈ s.world.produced)

theorem Marked.unseen_iff (hm : Marked before A s) {i : ℕ} (hi : i ∈ A) :
    Unseen before s.world i ↔ i ∉ s.evaluated := by
  rw [hm i hi, not_or, Unseen]

theorem Marked.finish (hm : Marked before A s) {r : World σ α × Value α} {e : Event α}
    (hr : r.1.trace = s.world.trace ++ [e]) (he : e.value = r.2) : Marked before A (s.finish r).1 := by
  intro i hi
  simp only [State.finish, List.mem_append, hm i hi, produced_eq hr, he]
  tauto

/-- An object that is none of these is added. -/
theorem Marked.add (hm : Marked before A s) {v : Value α} (hv : ∀ i ∈ A, i ∉ v.id?.toList) :
    Marked before A (s.finish (s.world, v)).1 := by
  intro i hi
  simp only [State.finish, List.mem_append, hv i hi, false_or, hm i hi]

/-- What the evaluation of a tree comes to: no more values than the tree has expressions and lists, and
when there are as many, the fold. -/
structure Reduction (E : Evaluator σ α) (before A I : List ℕ) (t : SExpr α) (s s' : State σ α)
    (v : Value α) : Prop where
  marked : Marked before A s'
  kept : Kept I s.world.objects s'.world.objects
  short : s'.world.trace.length ≤ s.world.trace.length + t.size
  clean : s'.world.trace.length = s.world.trace.length + t.size → Clean E before t s.world
  folds : Clean E before t s.world → (s'.world, v) = fold E t s.world

/-- The same for the trees of a list. -/
structure ReductionAll (E : Evaluator σ α) (before A I : List ℕ) (ts : List (SExpr α))
    (s s' : State σ α) (vs : List (Value α)) : Prop where
  marked : Marked before A s'
  kept : Kept I s.world.objects s'.world.objects
  short : s'.world.trace.length ≤ s.world.trace.length + sizes ts
  clean : s'.world.trace.length = s.world.trace.length + sizes ts → CleanAll E before ts s.world
  folds : CleanAll E before ts s.world → (s'.world, vs) = foldAll E ts s.world

/-- An object of the set is returned as it is. -/
theorem Reduction.seen {t : SExpr α} {i : ℕ} (hm : Marked before A s) (hA : i ∈ A)
    (hi : i ∈ s.evaluated) (ht : Clean E before t s.world → Unseen before s.world i)
    (hsize : 0 < t.size) : Reduction E before A I t s s (.object i) where
  marked := hm
  kept := .refl
  short := by omega
  clean h := by omega
  folds h := absurd hi ((hm.unseen_iff hA).1 (ht h))

/-- What is neither an expression nor a list is passed through. -/
theorem Reduction.leaf {u v : Value α} (hw : s'.world = s.world) (hm : Marked before A s')
    (hu : u.orNull = v) : Reduction E before A I (leaf u) s s' v where
  marked := hm
  kept := by rw [hw]; exact .refl
  short := by rw [hw]; omega
  clean _ := trivial
  folds _ := by simp only [fold, hu, hw]

theorem Reduction.plain {u : Value α} (hm : Marked before A s) (hu : u.orNull.id? = none) :
    Reduction E before A I (.leaf u) s (s.finish (s.world, u.orNull)).1 u.orNull :=
  .leaf rfl (hm.add (by simp [hu])) rfl

theorem ReductionAll.nil (hm : Marked before A s) : ReductionAll E before A I [] s s [] where
  marked := hm
  kept := .refl
  short := by simp
  clean _ := trivial
  folds _ := rfl

theorem Reduction.cons {t : SExpr α} {ts : List (SExpr α)} {s₁ : State σ α} {v : Value α}
    {vs : List (Value α)} (h : Reduction E before A I t s s₁ v)
    (hs : ReductionAll E before A I ts s₁ s' vs) :
    ReductionAll E before A I (t :: ts) s s' (v :: vs) where
  marked := hs.marked
  kept := h.kept.trans hs.kept
  short := by
    have := h.short
    have := hs.short
    simp only [sizes]
    omega
  clean hl := by
    have := h.short
    have := hs.short
    simp only [sizes] at hl
    have hc := h.clean (by omega)
    refine ⟨hc, ?_⟩
    rw [← h.folds hc]
    exact hs.clean (by omega)
  folds hc := by
    obtain ⟨ht, hts⟩ := hc
    have hf := h.folds ht
    rw [← hf] at hts
    simp only [foldAll, ← hf, ← hs.folds hts]

/-- The terms of an expression are evaluated, then the callback is called. -/
theorem ReductionAll.expr {i : ℕ} {op : Op} {ts : List (SExpr α)} {vs : List (Value α)}
    (h : ReductionAll E before A I ts s s' vs) (hE : Spares E I) (hi : Unseen before s.world i) :
    Reduction E before A I (expr i op ts) s (s'.finish (s'.world.call E op vs)).1
      (s'.world.call E op vs).2 where
  marked := h.marked.finish (trace_call op vs) rfl
  kept := h.kept.trans (.call hE op vs)
  short := by
    have := h.short
    simp only [State.finish, trace_call, List.length_append, List.length_singleton, size]
    omega
  clean hl := by
    simp only [State.finish, trace_call, List.length_append, List.length_singleton, size] at hl
    exact ⟨hi, h.clean (by omega)⟩
  folds hc := by
    simp only [fold, ← h.folds hc.2]
    rfl

/-- The elements of a list are evaluated into a new array. -/
theorem ReductionAll.list {i : ℕ} {xs : List (SExpr α)} {vs : List (Value α)}
    (h : ReductionAll E before A I xs s s' vs) (hi : Unseen before s.world i) :
    Reduction E before A I (list i xs) s (s'.finish (s'.world.array vs)).1 (s'.world.array vs).2 where
  marked := h.marked.finish (trace_array vs) rfl
  kept := h.kept.trans (.array vs)
  short := by
    have := h.short
    simp only [State.finish, trace_array, List.length_append, List.length_singleton, size]
    omega
  clean hl := by
    simp only [State.finish, trace_array, List.length_append, List.length_singleton, size] at hl
    exact ⟨hi, h.clean (by omega)⟩
  folds hc := by
    simp only [fold, ← h.folds hc.2]
    rfl

mutual

/-- With fuel for its depth, the evaluation of a tree returns. -/
theorem evaluation_reduction (hE : Spares E (A ++ L)) (hL : ∀ i ∈ L, i ∉ A) :
    ∀ (t : SExpr α) (fuel : ℕ) (s : State σ α), Inside A L t.arrays t.leaves →
      Holds s.world.objects t → Marked before A s → t.height < fuel →
      ∃ s' v, evaluation E fuel s t.value = some (s', v) ∧ Reduction E before A (A ++ L) t s s' v
  | _, 0, _, _, _, _, hf => absurd hf (by omega)
  | .leaf .undefined, fuel + 1, s, _, _, hm, _ => ⟨_, _, rfl, .plain hm rfl⟩
  | .leaf .null, fuel + 1, s, _, _, hm, _ => ⟨_, _, rfl, .plain hm rfl⟩
  | .leaf (.scalar a), fuel + 1, s, _, _, hm, _ => ⟨_, _, rfl, .plain hm rfl⟩
  | .leaf (.object i), fuel + 1, s, hin, ⟨ms, hms⟩, hm, _ => by
    by_cases hi : i ∈ s.evaluated
    · exact ⟨s, .object i, by simp [evaluation, value, hi], .leaf rfl hm rfl⟩
    · have hiA : i ∉ A := hL i (hin.leaf i (by simp [leaves, Value.id?]))
      refine ⟨(s.finish (s.world, .object i)).1, .object i, ?_, .leaf rfl (hm.add ?_) rfl⟩
      · simp [evaluation, value, hi, hms, State.finish]
      · simp only [Value.id?, Option.toList_some, List.mem_singleton]
        rintro j hj rfl
        exact hiA hj
  | .expr i op ts, fuel + 1, s, hin, ⟨hc, hts⟩, hm, hf => by
    have hA : i ∈ A := hin.array i (by simp [arrays])
    by_cases hi : i ∈ s.evaluated
    · exact ⟨s, .object i, by simp [evaluation, value, hi],
        .seen hm hA hi And.left (by simp [size])⟩
    · obtain ⟨s₁, vs, h₁, hvs⟩ := mapTerms_reduction hE hL ts fuel s hin.tail hts hm
        (by simpa [height] using hf)
      refine ⟨_, _, ?_, hvs.expr hE ((hm.unseen_iff hA).2 hi)⟩
      simp [evaluation, value, hi, hc, h₁, State.finish]
  | .list i xs, fuel + 1, s, hin, ⟨hc, hxs⟩, hm, hf => by
    have hA : i ∈ A := hin.array i (by simp [arrays])
    by_cases hi : i ∈ s.evaluated
    · exact ⟨s, .object i, by simp [evaluation, value, hi],
        .seen hm hA hi And.left (by simp [size])⟩
    · obtain ⟨s₁, vs, h₁, hvs⟩ := mapTerms_reduction hE hL xs fuel s hin.tail hxs hm
        (by simpa [height] using hf)
      refine ⟨_, _, ?_, hvs.list ((hm.unseen_iff hA).2 hi)⟩
      simp [evaluation, value, hi, hc, h₁, State.finish]

theorem mapTerms_reduction (hE : Spares E (A ++ L)) (hL : ∀ i ∈ L, i ∉ A) :
    ∀ (ts : List (SExpr α)) (fuel : ℕ) (s : State σ α), Inside A L (arraysAll ts) (leavesAll ts) →
      HoldsAll s.world.objects ts → Marked before A s → heights ts < fuel + 1 →
      ∃ s' vs, mapTerms (evaluation E fuel) s (ts.map value) = some (s', vs) ∧
        ReductionAll E before A (A ++ L) ts s s' vs
  | [], _, s, _, _, hm, _ => ⟨s, [], rfl, .nil hm⟩
  | t :: ts, fuel, s, hin, ⟨ht, hts⟩, hm, hf => by
    simp only [heights] at hf
    obtain ⟨s₁, v, h₁, hv⟩ := evaluation_reduction hE hL t fuel s hin.left ht hm (by omega)
    obtain ⟨s₂, vs, h₂, hvs⟩ := mapTerms_reduction hE hL ts fuel s₁ hin.right
      (holdsAll_of_kept hv.kept ts hin.right hts) hv.marked (by omega)
    exact ⟨s₂, v :: vs, by simp [mapTerms, h₁, h₂], hv.cons hvs⟩

end

/-! ## Evaluation outside a parse -/

variable (E) (t : SExpr α) (h : Store (Object α)) (env : σ)

/-- The evaluation of a tree comes to its fold, calls the callback once for each of its operators, each
after those of its terms, and leaves the tree as it is. -/
def EvaluatesByFold (before : List ℕ) : Prop :=
  ∀ fuel, t.height < fuel → ∃ s v, evaluation E fuel (.start h env before) t.value = some (s, v) ∧
    (s.world, v) = fold E t ⟨h, env, []⟩ ∧ s.world.calls = t.ops ∧
    ∀ i ∈ t.ids, s.world.objects.cell i = h.cell i

variable {E t h}

theorem cell_of_kept_of_holds {h' : Store (Object α)} (ht : Holds h t) (hk : Kept t.ids h h') :
    ∀ i ∈ t.ids, h'.cell i = h.cell i := by
  intro i hi
  rcases List.mem_append.1 hi with hA | hL
  · obtain ⟨c, hc, -⟩ := array_of_mem_arrays t ht hA
    rw [hc, hk i hi c hc]
  · obtain ⟨ms, hms⟩ := other_of_mem_leaves t ht hL
    rw [hms, hk i hi _ hms]

/-- What was evaluated before decides whether the evaluation of a tree is its fold. -/
theorem evaluatesByFold_iff_clean (before : List ℕ) (ht : Holds h t) (hE : Spares E t.ids) :
    EvaluatesByFold E t h env before ↔ Clean E before t ⟨h, env, []⟩ := by
  have hL : ∀ i ∈ t.leaves, i ∉ t.arrays := by
    intro i hi hA
    obtain ⟨ms, hms⟩ := other_of_mem_leaves t ht hi
    obtain ⟨c, hc, hne⟩ := array_of_mem_arrays t ht hA
    exact hne ms (Option.some.inj (hc.symm.trans hms))
  have hm : Marked before t.arrays (.start h env before) := fun i _ => by
    simp [State.start, World.produced]
  have hred : ∀ fuel, t.height < fuel → ∃ s v,
      evaluation E fuel (.start h env before) t.value = some (s, v) ∧
        Reduction E before t.arrays t.ids t (.start h env before) s v :=
    fun fuel hf => evaluation_reduction hE hL t fuel (.start h env before)
      ⟨fun _ => id, fun _ => id⟩ ht hm hf
  constructor
  · intro hfold
    obtain ⟨s, v, hs, hr⟩ := hred (t.height + 1) (by omega)
    obtain ⟨s', v', hs', hw, -⟩ := hfold (t.height + 1) (by omega)
    rw [hs, Option.some.injEq] at hs'
    obtain ⟨rfl, rfl⟩ := Prod.mk.inj hs'
    refine hr.clean ?_
    rw [show s.world = (fold E t ⟨h, env, []⟩).1 from congrArg Prod.fst hw]
    exact length_fold t _
  · intro hc fuel hf
    obtain ⟨s, v, hs, hr⟩ := hred fuel hf
    have hw := hr.folds hc
    refine ⟨s, v, hs, hw, ?_, cell_of_kept_of_holds ht hr.kept⟩
    rw [show s.world = (fold E t ⟨h, env, []⟩).1 from congrArg Prod.fst hw, calls_fold]
    rfl

/-- `x+y`, held by an object. -/
def sumOf (i : ℕ) (x y : ℤ) : SExpr ℤ := .expr i addition [.leaf (.scalar x), .leaf (.scalar y)]

/-- The objects after `1+2` is parsed. -/
def sumParsed : Store (Object ℤ) := (Store.empty.alloc (.expr addition [.scalar 1, .scalar 2])).1

/-- A callback that calculates. -/
def calculate : Evaluator Unit ℤ := fun _ vs h _ =>
  match vs with
  | [.scalar x, .scalar y] => (h, (), .scalar (x + y))
  | _ => (h, (), .undefined)

/-- A callback that rewrites an operation into the one with its terms the other way round. -/
def mirror : Evaluator Unit ℤ := fun op vs h _ =>
  let r := h.alloc (.expr op vs.reverse)
  (r.1, (), .object r.2)

theorem calculate_spares (I : List ℕ) : Spares calculate I := by
  intro op vs h env i _ c hc
  unfold calculate
  split <;> exact hc

theorem evaluatesByFold_sumParsed :
    EvaluatesByFold calculate (sumOf 1 1 2) sumParsed () [] ↔
      Clean calculate [] (sumOf 1 1 2) ⟨sumParsed, (), []⟩ :=
  evaluatesByFold_iff_clean () []
    (by simp [sumOf, Holds, HoldsAll, sumParsed, value, Store.empty, Store.alloc]) (calculate_spares _)

/-- What a first reduction made of `1+2` is an expression, and a second one does not reduce it. -/
theorem mirrored_not_evaluated :
    ∃ s : State Unit ℤ, evaluation mirror 2 (.start sumParsed () []) (.object 1) = some (s, .object 2) ∧
      Holds s.world.objects (sumOf 2 2 1) ∧
      ¬ EvaluatesByFold calculate (sumOf 2 2 1) s.world.objects () s.evaluated := by
  refine ⟨_, rfl, ?_, ?_⟩
  · exact ⟨rfl, trivial, trivial, trivial⟩
  · intro h
    obtain ⟨s, v, hs, -, hcalls, -⟩ := h 2 (by decide)
    have hs' : (s, v) = _ := (Option.some.inj hs).symm
    obtain ⟨rfl, rfl⟩ := Prod.mk.inj hs'
    exact absurd hcalls (by decide)

end TabnasExpr.Ts
