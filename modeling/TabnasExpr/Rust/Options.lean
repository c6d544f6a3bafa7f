import TabnasExpr.Lib.Assoc
import TabnasExpr.Resolve

/-!
# The operators of a user

`resolve_options` takes out the defaults the user names and puts his operators after those that are
left, in the order he gave them.  The maps the alternates look an operator up in keep the last one that
was set, so what is found is his own operator, and a default only where he has none (`userFirst`).

The map of the closers is filled from that of the openers, in whose order an opener of the user that is
also a default one stands before all others.  So with two parens of the user that end alike it need not
be his last one that is found at the closer, but it is one of his.
-/

namespace TabnasExpr.Rust

universe u

variable {υ τ : Type u}

/-- `OpDef`, with the kind flags that are set. -/
structure UserDef (υ : Type u) where
  src : List String
  osrc : String
  csrc : String
  left : Option ℤ
  right : Option ℤ
  kinds : List Kind
  preval : Option Preval
  use : Option υ

/-- What `make_op_map` and `make_paren_map` read of a definition: a source text that is not there is
empty. -/
def UserDef.read (d : UserDef υ) : OpDef υ where
  src := if .ternaryOp ∈ d.kinds then .pair (d.src[0]?.getD "") (d.src[1]?.getD "")
    else .text (d.src[0]?.getD "")
  osrc := d.osrc
  csrc := d.csrc
  left := d.left
  right := d.right
  kinds := d.kinds
  preval := d.preval.map fun p => .settings (some p.active) (some p.required) p.allow
  use := d.use
  shape := by split_ifs with h <;> simp [h]

/-- The operators of `ExprOptions`, by name; one with nothing to it deletes a default. -/
structure ExprOptions (υ : Type u) where
  op : List (String × Option (UserDef υ))
  nodup : (op.map Prod.fst).Nodup

/-- `ExprOptions::new`. -/
def ExprOptions.new : ExprOptions υ := ⟨[], List.nodup_nil⟩

/-- `with_op`. -/
def ExprOptions.withOp (o : ExprOptions υ) (name : String) (d : UserDef υ) : ExprOptions υ :=
  ⟨Assoc.set o.op name (some d), Assoc.nodup_keys_set o.nodup⟩

/-- `without_op`. -/
def ExprOptions.withoutOp (o : ExprOptions υ) (name : String) : ExprOptions υ :=
  ⟨Assoc.set o.op name none, Assoc.nodup_keys_set o.nodup⟩

/-- `prefix_value`. -/
def prefixValue (src : String) (right : ℤ) : UserDef υ :=
  ⟨[src], "", "", none, some right, [.prefixOp], none, none⟩

/-- `infix_value`. -/
def infixValue (src : String) (left right : ℤ) : UserDef υ :=
  ⟨[src], "", "", some left, some right, [.infixOp], none, none⟩

/-- `paren_value`. -/
def parenValue (osrc csrc : String) : UserDef υ := ⟨[], osrc, csrc, none, none, [.parenOp], none, none⟩

/-- `default_ops`. -/
def defaultOps : List (String × Option (UserDef υ)) :=
  [("positive", some (prefixValue "+" 4000000)), ("negative", some (prefixValue "-" 4000000)),
    ("addition", some (infixValue "+" 2000000 2100000)),
    ("subtraction", some (infixValue "-" 2000000 2100000)),
    ("multiplication", some (infixValue "*" 3000000 3100000)),
    ("division", some (infixValue "/" 3000000 3100000)),
    ("remainder", some (infixValue "%" 3000000 3100000)), ("plain", some (parenValue "(" ")"))]

/-- `resolve_options`. -/
def resolveOptions (o : ExprOptions υ) : List (String × Option (UserDef υ)) :=
  o.op.foldl (fun resolved e => Assoc.set (Assoc.remove resolved e.1) e.1 e.2) defaultOps

/-- The definitions of a table that are there, as the maps are made of them. -/
def definitions (ops : List (String × Option (UserDef υ))) : List (String × OpDef υ) :=
  ops.filterMap fun e => e.2.map fun d => (e.1, d.read)

/-- The operator maps of `Grammar`: those of the kinds led by a token, and those of the parens. -/
structure Grammar (τ υ : Type u) where
  anyfix : Kind → List (τ × Resolved υ)
  parenOpen : List (τ × Resolved υ)
  parenClose : List (τ × Resolved υ)

section Maps

variable [DecidableEq τ] (tin : String → τ)

/-- The operator maps `expr` makes. -/
def grammar (o : ExprOptions υ) : Grammar τ υ :=
  let ops := definitions (resolveOptions o)
  let parenOpen := Assoc.setAll [] (makeParenMap tin ops)
  { anyfix := fun k => Assoc.setAll [] (makeOpMap tin k ops)
    parenOpen := parenOpen
    parenClose := Assoc.setAll [] (parenOpen.map fun e => (tin e.2.csrc, e.2)) }

/-! ## The defaults that are left -/

/-- The defaults the user does not name. -/
def unnamed (o : ExprOptions υ) : List (String × Option (UserDef υ)) :=
  defaultOps.filter fun e => e.1 ∉ o.op.map Prod.fst

/-- The operators of the user come after the defaults he does not name. -/
theorem resolveOptions_eq (o : ExprOptions υ) : resolveOptions o = unnamed o ++ o.op :=
  Assoc.foldl_set_remove o.nodup

theorem definitions_resolveOptions (o : ExprOptions υ) :
    definitions (resolveOptions o) = definitions (unnamed o) ++ definitions o.op := by
  rw [resolveOptions_eq, definitions, List.filterMap_append]
  rfl

omit [DecidableEq τ] in
theorem makeOpMap_append (k : Kind) (A B : List (String × OpDef υ)) :
    makeOpMap tin k (A ++ B) = makeOpMap tin k A ++ makeOpMap tin k B := by
  rw [makeOpMap, List.filter_append, List.flatMap_append]
  rfl

omit [DecidableEq τ] in
theorem makeParenMap_append (A B : List (String × OpDef υ)) :
    makeParenMap tin (A ++ B) = makeParenMap tin A ++ makeParenMap tin B := by
  rw [makeParenMap, List.filter_append, List.map_append]
  rfl

omit [DecidableEq τ] in
theorem makeParenMap_definitions (ops : List (String × Option (UserDef υ))) :
    makeParenMap tin (definitions ops) = ops.filterMap fun e => e.2.bind fun d =>
      if .parenOp ∈ d.kinds then some (tin d.osrc, parenOp e.1 d.read) else none := by
  rw [makeParenMap, definitions, List.filter_filterMap, List.map_filterMap]
  refine List.filterMap_congr fun e _ => ?_
  obtain ⟨n, _ | d⟩ := e
  · rfl
  · by_cases hd : .parenOp ∈ d.kinds <;> simp [UserDef.read, hd]

/-- The default paren at its opener. -/
def plainOpener : τ × Resolved υ := (tin "(", parenOp "plain" (parenValue "(" ")").read)

omit [DecidableEq τ] in
/-- There is one default paren, or none where the user names it. -/
theorem makeParenMap_unnamed (o : ExprOptions υ) : makeParenMap tin (definitions (unnamed o)) =
    if "plain" ∈ o.op.map Prod.fst then [] else [plainOpener tin] := by
  rw [makeParenMap_definitions, unnamed, List.filterMap_filter]
  by_cases h : "plain" ∈ o.op.map Prod.fst <;>
    simp [defaultOps, prefixValue, infixValue, parenValue, plainOpener, h]

/-! ## The user comes first -/

/-- A paren of the user is found at its opener. -/
def Standing (o : ExprOptions υ) (op : Resolved υ) : Prop :=
  (makeParenMap tin (definitions o.op)).get (tin op.osrc) = some op

/-- What is found at a token is the user's own operator for it, and a default he does not name only where
he has none.  At a closer there is a paren that is found at its opener too: one of the user's, if one of
those found at their openers ends there, and else the default one, where it is left. -/
structure UserFirst (o : ExprOptions υ) : Prop where
  anyfix : ∀ k t, Assoc.last ((grammar tin o).anyfix k) t =
    ((makeOpMap tin k (definitions o.op)).get t).or ((makeOpMap tin k (definitions (unnamed o))).get t)
  opener : ∀ t, Assoc.last (grammar tin o).parenOpen t =
    ((makeParenMap tin (definitions o.op)).get t).or
      ((makeParenMap tin (definitions (unnamed o))).get t)
  closed : ∀ t op, Assoc.last (grammar tin o).parenClose t = some op →
    tin op.csrc = t ∧ Assoc.last (grammar tin o).parenOpen (tin op.osrc) = some op
  closer : ∀ t op, Standing tin o op → tin op.csrc = t →
    ∃ op', Standing tin o op' ∧ Assoc.last (grammar tin o).parenClose t = some op'
  default : ∀ op, (tin op.osrc, op) ∈ makeParenMap tin (definitions (unnamed o)) →
    (∀ op', Standing tin o op' → tin op'.osrc ≠ tin op.osrc ∧ tin op'.csrc ≠ tin op.csrc) →
    Assoc.last (grammar tin o).parenClose (tin op.csrc) = some op

variable {tin} {o : ExprOptions υ} {t : τ} {op : Resolved υ}

omit [DecidableEq τ] in
theorem osrc_of_mem {ops : List (String × OpDef υ)} (h : (t, op) ∈ makeParenMap tin ops) :
    tin op.osrc = t := by
  obtain ⟨e, -, he⟩ := List.mem_map.1 h
  obtain ⟨rfl, rfl⟩ := Prod.mk.inj he
  rfl

theorem anyfix_eq (tin : String → τ) (o : ExprOptions υ) (k : Kind) : (grammar tin o).anyfix k =
    Assoc.setAll [] (makeOpMap tin k (definitions (unnamed o)) ++ makeOpMap tin k (definitions o.op)) := by
  rw [← makeOpMap_append, ← definitions_resolveOptions]
  rfl

theorem parenOpen_eq (tin : String → τ) (o : ExprOptions υ) : (grammar tin o).parenOpen =
    Assoc.setAll [] (makeParenMap tin (definitions (unnamed o)) ++ makeParenMap tin (definitions o.op)) := by
  rw [← makeParenMap_append, ← definitions_resolveOptions]
  rfl

theorem mem_parenOpen : (t, op) ∈ (grammar tin o).parenOpen ↔
    ((makeParenMap tin (definitions o.op)).get t).or
      ((makeParenMap tin (definitions (unnamed o))).get t) = some op := by
  rw [parenOpen_eq, Assoc.mem_setAll_nil, Assoc.last_append]
  rfl

theorem osrc_of_mem_parenOpen (h : (t, op) ∈ (grammar tin o).parenOpen) : tin op.osrc = t :=
  osrc_of_mem (Assoc.mem_of_last (Assoc.mem_setAll_nil.1 h))

/-- The openers of the user's own parens stand behind the one of a default no paren of his has. -/
theorem parenOpen_split (tin : String → τ) (o : ExprOptions υ) :
    ∃ old new, (grammar tin o).parenOpen = old ++ new ∧
      (∀ e ∈ old, e ∈ makeParenMap tin (definitions (unnamed o))) ∧
      ∀ t op, (t, op) ∈ new ↔ (makeParenMap tin (definitions o.op)).get t = some op := by
  by_cases h : "plain" ∈ o.op.map Prod.fst
  · refine ⟨[], (grammar tin o).parenOpen, rfl, by simp, fun t op => ?_⟩
    rw [mem_parenOpen, makeParenMap_unnamed, if_pos h]
    exact iff_of_eq (congrArg (· = _) Option.or_none)
  · cases hget : (makeParenMap tin (definitions o.op)).get (tin "(") with
    | none =>
      have hkey : tin "(" ∉ (makeParenMap tin (definitions o.op)).map Prod.fst := Assoc.last_eq_none.1 hget
      refine ⟨[plainOpener tin], Assoc.setAll [] (makeParenMap tin (definitions o.op)), ?_, ?_, fun t op => ?_⟩
      · rw [parenOpen_eq, makeParenMap_unnamed, if_neg h]
        exact Assoc.setAll_cons hkey
      · rw [makeParenMap_unnamed, if_neg h]
        exact fun e he => he
      · exact Assoc.mem_setAll_nil
    | some op₀ =>
      refine ⟨[], (grammar tin o).parenOpen, rfl, by simp, fun t op => ?_⟩
      rw [mem_parenOpen, makeParenMap_unnamed, if_neg h]
      by_cases ht : t = tin "("
      · rw [ht, hget, Option.some_or]
      · have hnone : OpMap.get [@plainOpener υ τ tin] t = none :=
          Assoc.last_eq_none.2 fun h => ht (List.mem_singleton.1 h)
        rw [hnone, Option.or_none]

/-- What is found at a closer is the last of the openers with it. -/
theorem last_parenClose : Assoc.last (grammar tin o).parenClose t =
    Assoc.last ((grammar tin o).parenOpen.map fun e => (tin e.2.csrc, e.2)) t :=
  Assoc.last_setAll_nil

omit [DecidableEq τ] in
theorem mem_closers {es : List (τ × Resolved υ)} : (t, op) ∈ es.map (fun e => (tin e.2.csrc, e.2)) ↔
    tin op.csrc = t ∧ ∃ t', (t', op) ∈ es := by
  rw [List.mem_map]
  constructor
  · rintro ⟨⟨t', op'⟩, he, h⟩
    obtain ⟨rfl, rfl⟩ := Prod.mk.inj h
    exact ⟨rfl, t', he⟩
  · rintro ⟨rfl, t', he⟩
    exact ⟨_, he, rfl⟩

theorem parenClose_closed (h : Assoc.last (grammar tin o).parenClose t = some op) :
    tin op.csrc = t ∧ Assoc.last (grammar tin o).parenOpen (tin op.osrc) = some op := by
  rw [last_parenClose] at h
  obtain ⟨ht, t', hmem⟩ := mem_closers.1 (Assoc.mem_of_last h)
  refine ⟨ht, ?_⟩
  rw [osrc_of_mem_parenOpen hmem]
  exact Assoc.last_of_nodup (Assoc.nodup_keys_setAll List.nodup_nil) hmem

/-- Where a paren of the user ends, one of his is found. -/
theorem parenClose_of_standing (h : Standing tin o op) (ht : tin op.csrc = t) :
    ∃ op', Standing tin o op' ∧ Assoc.last (grammar tin o).parenClose t = some op' := by
  obtain ⟨old, new, hopen, -, hnew⟩ := parenOpen_split tin o
  have hmem : (t, op) ∈ new.map fun e => (tin e.2.csrc, e.2) := mem_closers.2 ⟨ht, _, (hnew _ _).2 h⟩
  rw [last_parenClose, hopen, List.map_append, Assoc.last_append]
  cases hl : Assoc.last (new.map fun e => (tin e.2.csrc, e.2)) t with
  | none => exact absurd (List.mem_map_of_mem hmem) (Assoc.last_eq_none.1 hl)
  | some op' =>
    obtain ⟨-, t', hmem'⟩ := mem_closers.1 (Assoc.mem_of_last hl)
    have hget := (hnew t' op').1 hmem'
    refine ⟨op', ?_, rfl⟩
    rw [Standing, osrc_of_mem (Assoc.mem_of_last hget)]
    exact hget

/-- A default paren is found where it ends, unless a paren of the user begins or ends like it. -/
theorem parenClose_of_default (hop : (tin op.osrc, op) ∈ makeParenMap tin (definitions (unnamed o)))
    (hfree : ∀ op', Standing tin o op' → tin op'.osrc ≠ tin op.osrc ∧ tin op'.csrc ≠ tin op.csrc) :
    Assoc.last (grammar tin o).parenClose (tin op.csrc) = some op := by
  obtain ⟨old, new, hopen, hold, hnew⟩ := parenOpen_split tin o
  have hstand : ∀ t' op', (t', op') ∈ new → tin op'.osrc = t' ∧ Standing tin o op' := by
    intro t' op' he
    have hget := (hnew t' op').1 he
    have hosrc : tin op'.osrc = t' := osrc_of_mem (Assoc.mem_of_last hget)
    exact ⟨hosrc, by rw [Standing, hosrc, hget]⟩
  have hnone : Assoc.last (new.map fun e => (tin e.2.csrc, e.2)) (tin op.csrc) = none := by
    rw [Assoc.last_eq_none]
    intro hc
    obtain ⟨⟨t', op'⟩, hmem, ht'⟩ := List.mem_map.1 hc
    obtain ⟨hcsrc, t'', he⟩ := mem_closers.1 hmem
    exact (hfree op' (hstand t'' op' he).2).2 (hcsrc.trans ht')
  have hget : (makeParenMap tin (definitions o.op)).get (tin op.osrc) = none := by
    cases hget : (makeParenMap tin (definitions o.op)).get (tin op.osrc) with
    | none => rfl
    | some op' =>
      obtain ⟨hosrc, hs⟩ := hstand _ op' ((hnew _ _).2 hget)
      exact absurd hosrc (hfree op' hs).1
  have honly : ∀ e ∈ makeParenMap tin (definitions (unnamed o)), e = (tin op.osrc, op) := by
    rw [makeParenMap_unnamed] at hop ⊢
    split_ifs at hop ⊢ with h
    · cases hop
    · exact fun e he => (List.mem_singleton.1 he).trans (List.mem_singleton.1 hop).symm
  have hmem : (tin op.osrc, op) ∈ (grammar tin o).parenOpen := by
    rw [mem_parenOpen, hget, Option.none_or]
    cases hl : (makeParenMap tin (definitions (unnamed o))).get (tin op.osrc) with
    | none => exact absurd (List.mem_map_of_mem hop) (Assoc.last_eq_none.1 hl)
    | some op' => exact congrArg (fun e => some e.2) (honly _ (Assoc.mem_of_last hl))
  rw [last_parenClose, hopen, List.map_append, Assoc.last_append, hnone, Option.none_or]
  rw [hopen, List.mem_append, hnew, hget] at hmem
  have hmem := hmem.resolve_right nofun
  cases hl : Assoc.last (old.map fun e => (tin e.2.csrc, e.2)) (tin op.csrc) with
  | none => exact absurd (List.mem_map_of_mem (mem_closers.2 ⟨rfl, _, hmem⟩)) (Assoc.last_eq_none.1 hl)
  | some op' =>
    obtain ⟨-, t', he⟩ := mem_closers.1 (Assoc.mem_of_last hl)
    exact congrArg (fun e => some e.2) (honly _ (hold _ he))

/-- The user has the last word on every operator and every opener, and on every closer. -/
theorem userFirst (tin : String → τ) (o : ExprOptions υ) : UserFirst tin o where
  anyfix k t := by
    rw [anyfix_eq, Assoc.last_setAll_nil, Assoc.last_append]
    rfl
  opener t := by
    rw [parenOpen_eq, Assoc.last_setAll_nil, Assoc.last_append]
    rfl
  closed _ _ h := parenClose_closed h
  closer _ _ h ht := parenClose_of_standing h ht
  default _ hop hfree := parenClose_of_default hop hfree

/-- The paren given last is not the one found where both end, since its opener is that of the default. -/
example : ((Assoc.last (grammar id ((ExprOptions.new.withOp "b" (parenValue "[" ")")).withOp "c"
    (parenValue "(" ")") : ExprOptions ℕ)).parenClose ")").map Resolved.name) = some "b-paren" := by
  decide

end Maps

end TabnasExpr.Rust
