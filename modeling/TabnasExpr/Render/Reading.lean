import TabnasExpr.Render.Items
import TabnasExpr.Render.Reader

/-!
# What a text is read as

A text is read as a sequence when the reader, wherever an operand is due, goes on to the expression with
that sequence put where the operand was.  The texts of the render are put together from texts that are
read, by operators, parens, lists and objects.
-/

namespace TabnasExpr.Render

open OpTree OpTree.Tree

universe u

variable {ν : Type u}

/-- Put a sequence where an operand is due. -/
def Partial.put (p : Partial ν) (e : Seq (Value ν)) : Option (Partial ν) :=
  match p with
  | lead ps => some (whole (e.under ps))
  | more f o ps => some (whole (f.append o (e.under ps)))
  | whole _ => none

/-- A text is read as a sequence, wherever an operand is due. -/
def Reads (lang : Lang) (t : Text ν) (e : Seq (Value ν)) : Prop :=
  ∀ c p p' fs, p.put e = some p' →
    Reader.run lang (.expr c p :: fs) t = some (.expr c p' :: fs)

/-- A text is read as an expression with a value. -/
def ReadsValue (lang : Lang) (t : Text ν) (v : Value ν) : Prop :=
  ∃ e, Reads lang t e ∧ e.Kinded ∧ valueOf e.tree = some v

section Reads

variable {lang : Lang} {t u : Text ν} {e f : Seq (Value ν)} {v : Value ν} {p p' : Partial ν}
  {c : Context ν} {fs : List (Frame ν)}

theorem put_lead_nil (v : Value ν) : p.put (.lead [] v) = p.operand v := by
  cases p <;> simp [Partial.put, Partial.operand, Seq.under, Seq.append]

theorem isDue_of_put (h : p.put e = some p') : p.isDue = true := by
  cases p with
  | lead ps | more e o ps => rfl
  | whole e => cases h

theorem operand_of_put (h : p.put (.lead [] v) = some p') :
    Reader.operand v (.expr c p :: fs) = some (.expr c p' :: fs) := by
  rw [put_lead_nil] at h
  simp [Reader.operand, h]

theorem reads_scalar (s : Scalar ν) (h : ∀ n, s = .num n → ∃ m, n = .finite false m) :
    Reads lang (exprScalarText s) (.lead [] (.scalar s)) := by
  intro c p p' fs hp
  have hop : Reader.operand (.scalar s) (.expr c p :: fs) = some (.expr c p' :: fs) :=
    operand_of_put hp
  cases s with
  | num n =>
    obtain ⟨m, rfl⟩ := h n rfl
    simpa [exprScalarText, exprNumber, Reader.run, Reader.step] using hop
  | null | bool b | str s => simpa [exprScalarText, Reader.run, Reader.step] using hop

/-- A prefix operator. -/
theorem Reads.under {s : Source} {o : Op} (h : Reads lang t e) (ho : s.prefixOp = some o) :
    Reads lang (.op s :: t) (e.under [o]) := by
  intro c p p' fs hp
  have hstep : ∀ q, p.operator s = some q →
      Reader.step lang (.expr c p :: fs) (.op s) = some (.expr c q :: fs) := by
    intro q hq
    cases s with
    | paren => cases ho
    | plus | minus | star | slash | percent => simp [Reader.step, hq]
  cases p with
  | lead ps =>
    cases hp
    have hq : Partial.operator s (.lead ps) = some (.lead (ps ++ [o]) : Partial ν) := by
      simp [Partial.operator, ho]
    rw [Reader.run, hstep _ hq]
    exact h _ _ _ _ (by simp [Partial.put, Seq.under_under])
  | more f q ps =>
    cases hp
    have hq : Partial.operator s (.more f q ps) = some (.more f q (ps ++ [o])) := by
      simp [Partial.operator, ho]
    rw [Reader.run, hstep _ hq]
    exact h _ _ _ _ (by simp [Partial.put, Seq.under_under])
  | whole f => cases hp

/-- An infix operator. -/
theorem Reads.append {s : Source} {o : Op} (ht : Reads lang t e) (hu : Reads lang u f)
    (ho : s.infixOp = some o) : Reads lang (t ++ .op s :: u) (e.append o f) := by
  intro c p p' fs hp
  have hstep : ∀ (g : Seq (Value ν)), Reader.step lang (.expr c (.whole g) :: fs) (.op s) =
      some (.expr c (.more g o []) :: fs) := by
    intro g
    cases s with
    | paren => cases ho
    | plus | minus | star | slash | percent =>
      simp [Reader.step, Partial.operator, ho]
  cases p with
  | lead ps =>
    cases hp
    rw [Reader.run_append, ht c (.lead ps) _ fs rfl, Option.bind_some, Reader.run, hstep]
    exact hu _ _ _ _ (by simp [Partial.put, Seq.under_append])
  | more g q ps =>
    cases hp
    rw [Reader.run_append, ht c (.more g q ps) _ fs rfl, Option.bind_some, Reader.run, hstep]
    exact hu _ _ _ _ (by simp [Partial.put, Seq.under_append, Seq.append_append])
  | whole g => cases hp

/-- The expression of a paren, a list element or a member, from its first lexeme to the one after
it. -/
theorem ReadsValue.run (h : ReadsValue lang t v) (c : Context ν) (fs : List (Frame ν)) :
    ∃ e, Reader.run lang (.expr c (.lead []) :: fs) t = some (.expr c (.whole e) :: fs) ∧
      Partial.value lang (.whole e) = some v := by
  obtain ⟨e, hr, hk, hv⟩ := h
  refine ⟨e, hr c (.lead []) _ fs ?_, ?_⟩
  · simp [Partial.put]
  · rw [Partial.value, build_eq lang hk, hv]

theorem Reads.of_operand
    (h : ∀ c p fs, p.isDue = true → Reader.run lang (.expr c p :: fs) t =
      Reader.operand v (.expr c p :: fs)) : Reads lang t (.lead [] v) := by
  intro c p p' fs hp
  rw [h c p fs (isDue_of_put hp), operand_of_put hp]

theorem reads_paren_nil :
    Reads lang ([.op .paren, .closeParen] : Text ν) (.lead [] (.op plain [])) := by
  refine Reads.of_operand fun c p fs hp => ?_
  simp [Reader.run, Reader.step, Reader.enter, hp, Reader.close]

theorem ReadsValue.paren (h : ReadsValue lang t v) :
    Reads lang (.op .paren :: (t ++ [.closeParen])) (.lead [] (.op plain [v])) := by
  refine Reads.of_operand fun c p fs hp => ?_
  obtain ⟨e, hrun, hv⟩ := h.run .paren (.expr c p :: fs)
  rw [Reader.run]
  simp only [Reader.step, Reader.enter, hp, if_true, Option.bind_some]
  rw [Reader.run_append, hrun, Option.bind_some]
  simp [Reader.run, Reader.step, Reader.close, hv]

/-! ## Lists and objects -/

variable {ts : List (Text ν)} {vs : List (Value ν)}

theorem run_elements (h : List.Forall₂ (ReadsValue lang) ts vs) (hne : ts ≠ [])
    (xs : List (Value ν)) (fs : List (Frame ν)) :
    Reader.run lang (.expr (.list xs) (.lead []) :: fs) (joinText [.comma] ts ++ [.closeList]) =
      Reader.operand (.list (xs ++ vs)) fs := by
  induction h generalizing xs with
  | nil => exact absurd rfl hne
  | @cons t v ts vs ht hts ih =>
    obtain ⟨e, hrun, hv⟩ := ht.run (.list xs) fs
    cases hts with
    | nil =>
      rw [joinText, Reader.run_append, hrun, Option.bind_some]
      simp [Reader.run, Reader.step, Reader.close, hv]
    | cons hu hts =>
      have hnext := ih (by simp) (xs ++ [v])
      rw [joinText_cons_cons, List.append_assoc, List.append_assoc, Reader.run_append, hrun,
        Option.bind_some,
        List.singleton_append, Reader.run]
      simp only [Reader.step, Reader.next, hv, Option.map_some, Option.bind_some]
      rw [hnext, List.append_assoc]
      rfl

theorem reads_list (h : List.Forall₂ (ReadsValue lang) ts vs) :
    Reads lang (.openList :: (joinText [.comma] ts ++ [.closeList])) (.lead [] (.list vs)) := by
  refine Reads.of_operand fun c p fs hp => ?_
  rw [Reader.run]
  simp only [Reader.step, Reader.enter, hp, if_true, Option.bind_some]
  cases h with
  | nil => simp [joinText, Reader.run, Reader.step, Reader.close]
  | cons hv hvs =>
    rw [run_elements (.cons hv hvs) (by simp), List.nil_append]

/-- The text of a member is read as the member. -/
def ReadsMember (lang : Lang) (part : Text ν) (m : String × Value ν) : Prop :=
  ∃ t, part = .str m.1 :: .colon :: t ∧ ReadsValue lang t m.2

theorem setMember_of_new {ms : List (String × Value ν)} {k : String} (h : k ∉ ms.map Prod.fst)
    (v : Value ν) : setMember ms k v = ms ++ [(k, v)] := by
  have hany : (ms.any fun m => m.1 = k) = false := by
    rw [List.any_eq_false]
    intro m hm he
    exact h (List.mem_map.2 ⟨m, hm, by simpa using he⟩)
  simp [setMember, hany]

theorem run_members {ms : List (String × Value ν)}
    (h : List.Forall₂ (ReadsMember lang) ts ms) (hne : ts ≠ []) (ns : List (String × Value ν))
    (hkeys : ((ns ++ ms).map Prod.fst).Nodup) (fs : List (Frame ν)) :
    Reader.run lang (.key ns :: fs) (joinText [.comma] ts ++ [.closeMap]) =
      Reader.operand (.map (ns ++ ms)) fs := by
  induction h generalizing ns with
  | nil => exact absurd rfl hne
  | @cons part m ts ms hm hms ih =>
    obtain ⟨k, v⟩ := m
    obtain ⟨t, rfl, ht⟩ := hm
    obtain ⟨e, hrun, hv⟩ := ht.run (.value ns k) fs
    have hnew : k ∉ ns.map Prod.fst := by
      intro hk
      rw [List.map_append] at hkeys
      exact (List.nodup_append.1 hkeys).2.2 k hk k (by simp) rfl
    cases hms with
    | nil =>
      rw [joinText, List.cons_append, List.cons_append, Reader.run]
      simp only [Reader.step, Option.bind_some]
      rw [Reader.run]
      simp only [Reader.step, Option.bind_some]
      rw [Reader.run_append, hrun, Option.bind_some]
      simp [Reader.run, Reader.step, Reader.close, hv, setMember_of_new hnew]
    | cons hn hns =>
      have hnext := ih (by simp) (ns ++ [(k, v)]) (by simpa using hkeys)
      rw [joinText_cons_cons, List.append_assoc, List.append_assoc, List.cons_append, List.cons_append,
        Reader.run]
      simp only [Reader.step, Option.bind_some]
      rw [Reader.run]
      simp only [Reader.step, Option.bind_some]
      rw [Reader.run_append, hrun, Option.bind_some, List.singleton_append, Reader.run]
      simp only [Reader.step, Reader.next, hv, Option.map_some, Option.bind_some,
        setMember_of_new hnew]
      rw [hnext, List.append_assoc]
      rfl

theorem reads_map {ms : List (String × Value ν)} (h : List.Forall₂ (ReadsMember lang) ts ms)
    (hkeys : (ms.map Prod.fst).Nodup) : Reads lang (mapText ts) (.lead [] (.map ms)) := by
  refine Reads.of_operand fun c p fs hp => ?_
  rw [mapText, Reader.run]
  simp only [Reader.step, Reader.enter, hp, if_true, Option.bind_some]
  cases h with
  | nil => simp [joinText, Reader.run, Reader.step]
  | cons hm hms =>
    rw [run_members (.cons hm hms) (by simp) [] (by simpa using hkeys), List.nil_append]

/-- A text is read as one sequence. -/
theorem Reads.unique (he : Reads lang t e) (hf : Reads lang t f) : e = f := by
  have hrun := he .root (.lead []) _ [] rfl
  rw [hf .root (.lead []) _ [] rfl] at hrun
  simpa using hrun.symm

/-- The value of a document that is read as a sequence, and ends with a line break. -/
theorem ReadsValue.read (h : ReadsValue lang t v) : Reader.read lang (t ++ [.newline]) = some v := by
  obtain ⟨e, hrun, hv⟩ := h.run .root []
  rw [Reader.read, Reader.run_append, hrun, Option.bind_some]
  exact hv

end Reads

end TabnasExpr.Render
