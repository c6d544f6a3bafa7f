import Mathlib.Data.List.Induction
import Mathlib.Logic.Basic

/-!
# Dyck words of several kinds of brackets

Words of opening brackets, closing brackets and values, where `M o c` says that `c` closes `o`.
`Balanced` is their grammar, and `Reads` reads a balanced word as a list of items, one for each value
and one for each pair, a pair having at hand the items before it and the items inside it.  `Dyck.run`
is the stack machine of the grammar: what it holds after a word is what the open brackets and the
items between them say (`run_eq_some_iff`), so it ends on an empty stack exactly on the balanced
words.
-/

namespace Dyck

variable {O C A B : Type*}

/-- A symbol of a word. -/
inductive Tok (O C A : Type*) where
  | opn (o : O)
  | val (a : A)
  | cls (c : C)
  deriving DecidableEq

/-- Every opening bracket is closed, in the reverse order. -/
inductive Balanced (M : O → C → Prop) : List (Tok O C A) → Prop
  | nil : Balanced M []
  | val {ts a} : Balanced M ts → Balanced M (ts ++ [.val a])
  | pair {ts us o c} : Balanced M ts → Balanced M us → M o c →
      Balanced M (ts ++ .opn o :: us ++ [.cls c])

/-- What a value stands for, and what a pair makes of the items before it and the items inside it. -/
structure Reading (O C A B : Type*) where
  value : A → B
  pair : O → C → List B → List B → List B

/-- The items a balanced word is read as. -/
inductive Reads (M : O → C → Prop) (R : Reading O C A B) : List (Tok O C A) → List B → Prop
  | nil : Reads M R [] []
  | val {ts xs a} : Reads M R ts xs → Reads M R (ts ++ [.val a]) (xs ++ [R.value a])
  | pair {ts us xs ys o c} : Reads M R ts xs → Reads M R us ys → M o c →
      Reads M R (ts ++ .opn o :: us ++ [.cls c]) (R.pair o c xs ys)

variable {M : O → C → Prop} {R : Reading O C A B} {ts us : List (Tok O C A)} {xs ys : List B}

theorem balanced_iff_reads : Balanced M ts ↔ ∃ xs, Reads M R ts xs := by
  constructor
  · intro h
    induction h with
    | nil => exact ⟨[], .nil⟩
    | val _ ih =>
      obtain ⟨xs, ih⟩ := ih
      exact ⟨_, ih.val⟩
    | pair _ _ hM ih ih' =>
      obtain ⟨xs, ih⟩ := ih
      obtain ⟨ys, ih'⟩ := ih'
      exact ⟨_, ih.pair ih' hM⟩
  · rintro ⟨xs, h⟩
    induction h with
    | nil => exact .nil
    | val _ ih => exact ih.val
    | pair _ _ hM ih ih' => exact ih.pair ih' hM

/-! ## The stack machine -/

/-- The items read at the innermost level, and the open brackets from the innermost on, each with the
items read before it. -/
structure State (O B : Type*) where
  items : List B
  frames : List (O × List B)

variable [∀ o c, Decidable (M o c)]

variable (M R) in
/-- Read one symbol. -/
def step (s : State O B) : Tok O C A → Option (State O B)
  | .opn o => some ⟨[], (o, s.items) :: s.frames⟩
  | .val a => some ⟨s.items ++ [R.value a], s.frames⟩
  | .cls c =>
    match s.frames with
    | [] => none
    | (o, outer) :: frames => if M o c then some ⟨R.pair o c outer s.items, frames⟩ else none

variable (M R) in
/-- Read a word. -/
def run (ts : List (Tok O C A)) (s : State O B) : Option (State O B) := ts.foldlM (step M R) s

theorem run_append (ts us : List (Tok O C A)) (s : State O B) :
    run M R (ts ++ us) s = (run M R ts s).bind (run M R us) := List.foldlM_append

@[simp] theorem run_cons (tok : Tok O C A) (ts : List (Tok O C A)) (s : State O B) :
    run M R (tok :: ts) s = (step M R s tok).bind (run M R ts) := rfl

@[simp] theorem run_nil (s : State O B) : run M R ([] : List (Tok O C A)) s = some s := rfl

theorem run_concat (ts : List (Tok O C A)) (tok : Tok O C A) (s : State O B) :
    run M R (ts ++ [tok]) s = (run M R ts s).bind fun s => step M R s tok := by
  rw [run_append]
  congr 1
  funext s'
  rw [run_cons]
  cases step M R s' tok <;> rfl

/-- A balanced word adds its items and leaves the stack as it was. -/
theorem run_of_reads (h : Reads M R ts xs) (frames : List (O × List B)) :
    run M R ts ⟨[], frames⟩ = some ⟨xs, frames⟩ := by
  induction h generalizing frames with
  | nil => rfl
  | val _ ih => simp [run_append, ih, step]
  | pair _ _ hM ih ih' => simp [run_append, ih, ih', step, hM]

variable (M R) in
/-- The word read so far, from the open brackets and the items between them. -/
def Opened : List (O × List B) → List B → List (Tok O C A) → Prop
  | [], xs, ts => Reads M R ts xs
  | (o, outer) :: frames, xs, ts =>
    ∃ us vs, Opened frames outer us ∧ Reads M R vs xs ∧ ts = us ++ .opn o :: vs

theorem Opened.step {s s' : State O B} {tok : Tok O C A} (h : Opened M R s.frames s.items ts)
    (hs : Dyck.step M R s tok = some s') : Opened M R s'.frames s'.items (ts ++ [tok]) := by
  obtain ⟨items, frames⟩ := s
  cases tok with
  | opn o =>
    cases hs
    exact ⟨ts, [], h, .nil, rfl⟩
  | val a =>
    cases hs
    cases frames with
    | nil => exact Reads.val h
    | cons f frames =>
      obtain ⟨us, vs, hu, hv, rfl⟩ := h
      exact ⟨us, vs ++ [.val a], hu, hv.val, by simp⟩
  | cls c =>
    cases frames with
    | nil => cases hs
    | cons f frames =>
      obtain ⟨us, vs, hu, hv, rfl⟩ := h
      simp only [Dyck.step, Option.ite_none_right_eq_some, Option.some.injEq] at hs
      obtain ⟨hM, rfl⟩ := hs
      cases frames with
      | nil =>
        have := Reads.pair hu hv hM
        rw [List.append_assoc, List.cons_append] at this
        exact List.append_assoc us _ _ ▸ this
      | cons g frames =>
        obtain ⟨us', vs', hu', hv', rfl⟩ := hu
        refine ⟨us', vs' ++ .opn f.1 :: vs ++ [.cls c], hu', hv'.pair hv hM, by simp⟩

/-- What the machine holds after a word. -/
theorem run_eq_some_iff {frames : List (O × List B)} :
    run M R ts ⟨[], []⟩ = some ⟨xs, frames⟩ ↔ Opened M R frames xs ts := by
  constructor
  · intro h
    induction ts using List.reverseRecOn generalizing xs frames with
    | nil =>
      cases h
      exact .nil
    | append_singleton ts tok ih =>
      rw [run_concat] at h
      obtain ⟨s, hs, hstep⟩ := Option.bind_eq_some_iff.1 h
      exact (ih hs).step hstep
  · intro h
    induction frames generalizing xs ts with
    | nil => exact run_of_reads h []
    | cons f frames ih =>
      obtain ⟨us, vs, hu, hv, rfl⟩ := h
      rw [run_append, ih hu]
      exact run_of_reads hv _

/-- The machine ends on an empty stack on the balanced words only, with their items. -/
theorem run_eq_some_nil_iff : run M R ts ⟨[], []⟩ = some ⟨xs, []⟩ ↔ Reads M R ts xs :=
  run_eq_some_iff

end Dyck
