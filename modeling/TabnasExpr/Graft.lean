import TabnasExpr.Lib.Rose
import TabnasExpr.Rust.Calls

/-!
# The pure rewrite of `prattify`

`prattify` rewrites nodes in place.  Read on the trees the nodes hold, it goes down the operands in
whose place a tighter operator is put (`Descends`), and there puts the new operator around a node or in
the place of an operand (`graft`).  A tree is one of operators, plain lists and operands of any number,
as a node may hold them.
-/

namespace TabnasExpr

open Rose

variable {α : Type*}

/-- What a node of an expression holds: its operator and its terms, a missing one read as a leaf. -/
abbrev Terms (α : Type*) := Rose (Option Op) (Option α)

/-- The same with the numbers of the nodes. -/
abbrev Nodes (α : Type*) := Rose (ℕ × Option Op) (Option α)

namespace Terms

/-- The operator at the head of a tree. -/
def label {ω : Type*} (f : ω → Option Op) : Rose ω (Option α) → Option Op
  | .leaf _ => none
  | .node o _ => f o

/-- An operator goes down into an operand headed by this one. -/
def Descends (op : Op) (lastOp : Op) : Prop :=
  (op.kind = .infixOp ∨ op.kind = .suffixOp ∧ lastOp.kind = .prefixOp) ∧ lastOp.right < op.left

instance (op lastOp : Op) : Decidable (Descends op lastOp) := inferInstanceAs (Decidable (_ ∧ _))

/-- What an operator keeps of the operand in whose place it is put. -/
def kept {ω : Type*} (op : Op) (x : Rose ω (Option α)) : List (Rose ω (Option α)) :=
  if op.kind = .prefixOp then [] else [x]

theorem eq_of_mem_kept {ω : Type*} {op : Op} {x t : Rose ω (Option α)} (h : t ∈ kept op x) : t = x := by
  unfold kept at h
  split_ifs at h
  · cases h
  · exact List.mem_singleton.1 h

/-- Where an operator goes in a tree, and what is put there. -/
structure Placement (α : Type*) where
  /-- It goes around a node headed by this operator. -/
  around : Op → Bool
  /-- It goes down into an operand headed by this operator. -/
  down : Op → Bool
  wrap : Terms α → Terms α
  put : Terms α → Terms α

variable (P : Placement α)

mutual

/-- A tree with an operator put in. -/
def place : Terms α → Terms α
  | .leaf b => .leaf b
  | .node none ts => .node none ts
  | .node (some exprOp) ts =>
    if P.around exprOp then P.wrap (.node (some exprOp) ts)
    else .node (some exprOp) (placeAt (exprOp.terms - 1) ts)

/-- The operands of a node with an operator put in at an index; what is missing up to it is filled
in. -/
def placeAt : ℕ → List (Terms α) → List (Terms α)
  | 0, t :: ts => (if (label id t).any P.down then place t else P.put t) :: ts
  | k + 1, t :: ts => t :: placeAt k ts
  | k, [] => List.replicate k (.leaf none) ++ [P.put (.leaf none)]

end

mutual

/-- The node of the operator that is put in. -/
def made : Terms α → Terms α
  | .leaf b => .leaf b
  | .node none ts => .node none ts
  | .node (some exprOp) ts =>
    if P.around exprOp then P.wrap (.node (some exprOp) ts) else madeAt (exprOp.terms - 1) ts

def madeAt : ℕ → List (Terms α) → Terms α
  | 0, t :: _ => if (label id t).any P.down then made t else P.put t
  | k + 1, _ :: ts => madeAt k ts
  | _, [] => P.put (.leaf none)

end

/-- What an operator makes of the operand it is put in at. -/
def placeOperand (x : Terms α) : Terms α := if (label id x).any P.down then place P x else P.put x

/-- The placement of `prattify`, `more` after the operands the operator takes. -/
def pratt (op : Op) (more : List (Terms α)) : Placement α where
  around exprOp := Rust.GoesAround exprOp op
  down lastOp := Descends op lastOp
  wrap t := .node (some op) (t :: more)
  put x := .node (some op) (kept op x ++ more)

/-- The rewrite of `prattify`. -/
def graft (op : Op) (more : List (Terms α)) (t : Terms α) : Terms α :=
  match op.kind with
  | .ternaryOp | .parenOp => t
  | _ => place (pratt op more) t

/-- The operands of a node up to an index, the missing ones filled in. -/
def pad {ω : Type*} (k : ℕ) (ts : List (Rose ω (Option α))) : List (Rose ω (Option α)) :=
  ts ++ List.replicate (k + 1 - ts.length) (.leaf none)

mutual

/-- The node an operator stops at on its way down. -/
def stop (op : Op) : Nodes α → ℕ
  | .leaf _ => 0
  | .node (i, none) _ => i
  | .node (i, some exprOp) ts =>
    if Rust.GoesAround exprOp op then i else stopAt op i (exprOp.terms - 1) ts

def stopAt (op : Op) (i : ℕ) : ℕ → List (Nodes α) → ℕ
  | 0, t :: _ => if (label Prod.snd t).any fun q => Descends op q then stop op t else i
  | k + 1, _ :: ts => stopAt op i k ts
  | _, [] => i

end

section Pad

variable {ω : Type*} {k : ℕ} {ts l r : List (Rose ω (Option α))} {x : Rose ω (Option α)}

theorem exists_pad (k : ℕ) (ts : List (Rose ω (Option α))) :
    ∃ l x r, l.length = k ∧ pad k ts = l ++ x :: r := by
  have hk : k < (pad k ts).length := by
    simp only [pad, List.length_append, List.length_replicate]
    omega
  refine ⟨(pad k ts).take k, (pad k ts)[k], (pad k ts).drop (k + 1), ?_, ?_⟩
  · rw [List.length_take, min_eq_left hk.le]
  · rw [← List.drop_eq_getElem_cons hk, List.take_append_drop]

theorem mem_pad {t : Rose ω (Option α)} (h : t ∈ pad k ts) : t ∈ ts ∨ t = .leaf none := by
  rw [pad, List.mem_append] at h
  exact h.imp_right List.eq_of_mem_replicate

theorem append_inj_of_length {β : Type*} {l l' r r' : List β} {x x' : β}
    (h : l ++ x :: r = l' ++ x' :: r')
    (hl : l.length = l'.length) : l = l' ∧ x = x' ∧ r = r' := by
  obtain ⟨h₁, h₂⟩ := List.append_inj h hl
  exact ⟨h₁, (List.cons.inj h₂).1, (List.cons.inj h₂).2⟩

/-- The operand at an index is there, or it is filled in past the last one. -/
theorem pad_cases (h : pad k ts = l ++ x :: r) (hl : l.length = k) :
    k < ts.length ∧ ts = l ++ x :: r ∨
      ¬ k < ts.length ∧ l = ts ++ List.replicate (k - ts.length) (.leaf none) ∧ x = .leaf none ∧
      r = [] := by
  by_cases hk : k < ts.length
  · refine Or.inl ⟨hk, ?_⟩
    rwa [pad, Nat.sub_eq_zero_of_le hk, List.replicate_zero, List.append_nil] at h
  · refine Or.inr ⟨hk, ?_⟩
    rw [pad, Nat.succ_sub (not_lt.1 hk), List.replicate_succ', ← List.append_assoc] at h
    refine append_inj_of_length h.symm ?_
    rw [hl, List.length_append, List.length_replicate]
    omega

theorem pad_append (hl : l.length = k) : pad k (l ++ x :: r) = l ++ x :: r := by
  rw [pad, Nat.sub_eq_zero_of_le, List.replicate_zero, List.append_nil]
  simp only [List.length_append, List.length_cons]
  omega

theorem pad_cons (t : Rose ω (Option α)) : pad (k + 1) (t :: ts) = t :: pad k ts := by
  rw [pad, pad, List.length_cons, Nat.add_sub_add_right, List.cons_append]

theorem pad_zero_cons (t : Rose ω (Option α)) : pad 0 (t :: ts) = t :: ts := by
  simp [pad]

theorem pad_nil :
    pad k ([] : List (Rose ω (Option α))) = List.replicate k (.leaf none) ++ [.leaf none] := by
  rw [pad, List.nil_append, List.length_nil, Nat.sub_zero, List.replicate_succ']

end Pad

variable {op : Op} {more : List (Terms α)} {k i : ℕ}

theorem placeAt_eq {ts l r : List (Terms α)} {x : Terms α} (h : pad k ts = l ++ x :: r)
    (hl : l.length = k) : placeAt P k ts = l ++ placeOperand P x :: r := by
  induction ts generalizing k l with
  | nil =>
    rw [pad_nil] at h
    obtain ⟨rfl, rfl, rfl⟩ := append_inj_of_length h (by simp [hl])
    cases k <;> rw [placeAt] <;> simp [placeOperand, label]
  | cons t ts ih =>
    cases k with
    | zero =>
      obtain rfl := List.length_eq_zero_iff.1 hl
      rw [pad_zero_cons] at h
      cases h
      rw [placeAt]
      rfl
    | succ k =>
      cases l with
      | nil => cases hl
      | cons u l =>
        rw [pad_cons] at h
        obtain ⟨rfl, htail⟩ := List.cons.inj h
        rw [placeAt, ih htail (Nat.succ.inj hl)]
        rfl

theorem madeAt_append {l r : List (Terms α)} {x : Terms α} (hl : l.length = k) :
    madeAt P k (l ++ x :: r) = if (label id x).any P.down then made P x else P.put x := by
  induction l generalizing k with
  | nil =>
    cases hl
    rw [List.nil_append, List.length_nil, madeAt]
  | cons t l ih =>
    cases hl
    rw [List.cons_append, List.length_cons, madeAt, ih rfl]

theorem made_around {exprOp : Op} (h : P.around exprOp = true) (ts : List (Terms α)) :
    made P (.node (some exprOp) ts) = P.wrap (.node (some exprOp) ts) := by
  rw [made, if_pos h]

theorem made_into {exprOp : Op} {l r : List (Terms α)} {x : Terms α} (h : P.around exprOp = false)
    (hl : l.length = exprOp.terms - 1) : made P (.node (some exprOp) (l ++ x :: r)) =
      if (label id x).any P.down then made P x else P.put x := by
  rw [made, h, if_neg Bool.false_ne_true, madeAt_append P hl]

theorem place_around {exprOp : Op} (h : P.around exprOp = true) (ts : List (Terms α)) :
    place P (.node (some exprOp) ts) = P.wrap (.node (some exprOp) ts) := by
  rw [place, if_pos h]

theorem place_into {exprOp : Op} {ts l r : List (Terms α)} {x : Terms α} (h : P.around exprOp = false)
    (hpad : pad (exprOp.terms - 1) ts = l ++ x :: r) (hl : l.length = exprOp.terms - 1) :
    place P (.node (some exprOp) ts) = .node (some exprOp) (l ++ placeOperand P x :: r) := by
  rw [place, h, if_neg Bool.false_ne_true, placeAt_eq P hpad hl]

/-- An operand that is missing is not put in without filling it in. -/
theorem ne_place_of_length {exprOp : Op} {ts : List (Terms α)} (h : P.around exprOp = false)
    (hlen : ts.length ≤ exprOp.terms - 1) :
    .node (some exprOp) ts ≠ place P (.node (some exprOp) ts) := by
  obtain ⟨l, x, r, hl, hpad⟩ := exists_pad (exprOp.terms - 1) ts
  rw [place_into P h hpad hl]
  intro he
  have hlen' := congrArg List.length (Rose.node.inj he).2
  simp only [List.length_append, List.length_cons] at hlen'
  omega

theorem stopAt_eq {ts l r : List (Nodes α)} {x : Nodes α} (h : pad k ts = l ++ x :: r)
    (hl : l.length = k) :
    stopAt op i k ts = if (label Prod.snd x).any fun q => Descends op q then stop op x else i := by
  induction ts generalizing k l with
  | nil =>
    rw [pad_nil] at h
    obtain ⟨rfl, rfl, rfl⟩ := append_inj_of_length h (by simp [hl])
    cases k <;> rw [stopAt] <;> simp [label]
  | cons t ts ih =>
    cases k with
    | zero =>
      obtain rfl := List.length_eq_zero_iff.1 hl
      rw [pad_zero_cons] at h
      cases h
      rw [stopAt]
    | succ k =>
      cases l with
      | nil => cases hl
      | cons u l =>
        rw [pad_cons] at h
        obtain ⟨-, htail⟩ := List.cons.inj h
        rw [stopAt, ih htail (Nat.succ.inj hl)]

/-- The operators that are put into no expression. -/
theorem graft_other (hk : op.kind = .ternaryOp ∨ op.kind = .parenOp) (t : Terms α) :
    graft op more t = t := by
  unfold graft
  obtain hk | hk := hk <;> rw [hk]

theorem graft_eq_place (hk : op.kind ≠ .ternaryOp ∧ op.kind ≠ .parenOp) (t : Terms α) :
    graft op more t = place (pratt op more) t := by
  unfold graft
  cases hop : op.kind with
  | ternaryOp => exact absurd hop hk.1
  | parenOp => exact absurd hop hk.2
  | prefixOp | suffixOp | infixOp => rfl

/-- An operator that goes around a node takes it as its first operand. -/
theorem graft_around {exprOp : Op} (h : Rust.GoesAround exprOp op) (ts : List (Terms α)) :
    graft op more (.node (some exprOp) ts) = .node (some op) (.node (some exprOp) ts :: more) := by
  have hk : op.kind ≠ .ternaryOp ∧ op.kind ≠ .parenOp := by
    obtain ⟨hk, -⟩ | ⟨hk, -⟩ := h <;> simp [hk]
  rw [graft_eq_place hk, place_around _ (decide_eq_true h)]
  rfl

/-- An operator that goes into a node is put in at its last operand. -/
theorem graft_into {exprOp : Op} {ts l r : List (Terms α)} {x : Terms α}
    (hk : op.kind ≠ .ternaryOp ∧ op.kind ≠ .parenOp) (h : ¬ Rust.GoesAround exprOp op)
    (hpad : pad (exprOp.terms - 1) ts = l ++ x :: r) (hl : l.length = exprOp.terms - 1) :
    graft op more (.node (some exprOp) ts) =
      .node (some exprOp) (l ++ placeOperand (pratt op more) x :: r) := by
  rw [graft_eq_place hk, place_into _ (decide_eq_false h) hpad hl]

end Terms

end TabnasExpr
