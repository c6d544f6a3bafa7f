import TabnasExpr.Render.Protocol
import TabnasExpr.Render.Spelled

/-!
# What the render refuses

The render refuses a list that is led by an object whose last `src`, read back as it is written, would
be taken for the list's operator and is the source text of no default one, and it refuses nothing else
(`exprRender_unrepresentable_iff`).
-/

namespace TabnasExpr.Render

universe u

variable {ν : Type u}

namespace Json

/-- A value as it is read back from the text it is written as: a number that is not finite is a string,
and a negative one an operation. -/
def readBack : Json ν → Json ν
  | scalar (.num .infinity) => scalar (.str "Infinity")
  | scalar (.num .negativeInfinity) => scalar (.str "-Infinity")
  | scalar (.num .nan) => scalar (.str "NaN")
  | scalar (.num (.finite true n)) =>
    list [scalar (.str Source.minus.text), scalar (.num (.finite false n))]
  | x => x

/-- The empty string, zero, false and null. -/
def Falsy [Zero ν] (x : Json ν) : Prop :=
  x = scalar (.str "") ∨ x = scalar (.bool false) ∨ x = scalar .null ∨
    x = scalar (.num (.finite false 0))

/-- A `src` that a simplifier would take for an operator, and which is no default one's source text. -/
def Misread [Zero ν] (x : Json ν) : Prop := ¬ x.Falsy ∧ ∀ o : Source, x ≠ scalar (.str o.text)

/-- The value of the last `src` member. -/
def lastSrc (ms : List (String × Json ν)) : Option (Json ν) :=
  ((ms.filter fun m => m.1 = "src").getLast?).map Prod.snd

/-- A part of a tree, at any depth. -/
inductive Within (x : Json ν) : Json ν → Prop where
  | self : Within x x
  | element {y xs} (hy : y ∈ xs) (h : Within x y) : Within x (list xs)
  | member {k y ms} (hy : (k, y) ∈ ms) (h : Within x y) : Within x (obj ms)

/-- Some list of the tree is led by an object whose last `src` would be misread. -/
def Unrepresentable [Zero ν] (t : Json ν) : Prop :=
  ∃ xs ms v, Within (list xs) t ∧ xs.head? = some (obj ms) ∧ lastSrc ms = some v ∧ v.readBack.Misread

end Json

/-! ## The texts of values -/

/-- The scalar a lexeme is read back as, by itself. -/
def Lexeme.toScalar : Lexeme ν → Option (Scalar ν)
  | str s => some (.str s)
  | num n => some (.num (.finite false n))
  | bool b => some (.bool b)
  | null => some .null
  | _ => none

theorem exists_mark_exprArray (is : List (Item ν)) : ∃ l ∈ (exprArray is).text, l.toScalar = none := by
  have hlist : ∃ l ∈ exprList is, l.toScalar = none := ⟨.openList, List.mem_cons_self, rfl⟩
  have hop : ∀ (o : Source) (t u : Text ν), ∃ l ∈ t ++ .op o :: u, l.toScalar = none :=
    fun o t u => ⟨.op o, by simp, rfl⟩
  unfold exprArray
  simp only
  split
  · split
    · exact hop .paren [] _
    · exact hlist
  · split
    · exact hop .paren [] _
    · exact hop .plus [] _
    · exact hop .minus [] _
    · exact hlist
  · unfold exprInfix
    split
    · exact hlist
    · exact hlist
    · exact hop _ _ _
  · exact hlist

namespace Json

variable [Zero ν] [DecidableEq ν] {x : Json ν} {ms : List (String × Json ν)}

/-- A value is read back as a scalar where its text is one lexeme, that scalar's. -/
theorem readBack_eq_scalar_iff {v : Scalar ν} :
    x.readBack = scalar v ↔ ∃ l, x.item.text = [l] ∧ l.toScalar = some v := by
  cases x with
  | scalar v' =>
    have htext : (item (scalar v')).text = exprScalarText v' := rfl
    rw [htext]
    cases v' with
    | num n =>
      cases n with
      | finite negative n =>
        cases negative <;> simp [readBack, exprScalarText, exprNumber, Lexeme.toScalar]
      | infinity | negativeInfinity | nan =>
        simp [readBack, exprScalarText, exprNumber, Lexeme.toScalar]
    | null | bool b | str s => simp [readBack, exprScalarText, Lexeme.toScalar]
  | list xs =>
    refine iff_of_false (by simp [readBack]) ?_
    rintro ⟨l, htext, hl⟩
    obtain ⟨l', hl', hmark⟩ := exists_mark_exprArray (leadItems (items xs))
    have htext' : (exprArray (leadItems (items xs))).text = [l] := htext
    rw [htext', List.mem_singleton] at hl'
    rw [hl', hl] at hmark
    cases hmark
  | obj ms =>
    refine iff_of_false (by simp [readBack]) ?_
    rintro ⟨l, htext, hl⟩
    have htext' : mapText (parts ms) = [l] := htext
    obtain ⟨rfl, -⟩ := List.cons.inj htext'
    cases hl

theorem text_eq_iff {l : Lexeme ν} {v : Scalar ν} (hl : ∀ l', l'.toScalar = some v ↔ l' = l) :
    x.item.text = [l] ↔ x.readBack = scalar v := by
  rw [readBack_eq_scalar_iff]
  simp only [hl, exists_eq_right]

theorem text_eq_str_iff {s : String} : x.item.text = [.str s] ↔ x.readBack = scalar (.str s) :=
  text_eq_iff fun l => by cases l <;> simp [Lexeme.toScalar]

/-- The texts that are not read are those of the values that count as false. -/
theorem exprSrcRead_item : exprSrcRead x.item.text = false ↔ x.readBack.Falsy := by
  have hbool : x.item.text = [.bool false] ↔ x.readBack = scalar (.bool false) :=
    text_eq_iff fun l => by cases l <;> simp [Lexeme.toScalar]
  have hnull : x.item.text = [.null] ↔ x.readBack = scalar .null :=
    text_eq_iff fun l => by cases l <;> simp [Lexeme.toScalar]
  have hnum : x.item.text = [.num 0] ↔ x.readBack = scalar (.num (.finite false 0)) :=
    text_eq_iff fun l => by cases l <;> simp [Lexeme.toScalar]
  rw [Spelled.exprSrcRead_text_iff, text_eq_str_iff, hbool, hnull, hnum, Falsy]

/-! ## The last `src` -/

/-- The text of a member. -/
def member (m : String × Json ν) : Text ν := .str m.1 :: .colon :: m.2.item.text

theorem parts_eq_map (ms : List (String × Json ν)) : parts ms = ms.map member := by
  induction ms with
  | nil => rfl
  | cons m ms ih => exact congrArg _ ih

theorem exprIsSrc_member (m : String × Json ν) : exprIsSrc (member m) = decide (m.1 = "src") := by
  obtain ⟨k, x⟩ := m
  by_cases hk : k = "src"
  · subst hk
    rfl
  · simp [exprIsSrc, member, hk]

/-- The member the render reads is the last `src`. -/
theorem getLast?_exprIsSrc (ms : List (String × Json ν)) :
    ((parts ms).filter exprIsSrc).getLast? =
      (lastSrc ms).map fun x => .str "src" :: .colon :: x.item.text := by
  have hfilter : (parts ms).filter exprIsSrc = (ms.filter fun m => m.1 = "src").map member := by
    rw [parts_eq_map, List.filter_map]
    congr 1
    apply List.filter_congr
    intro m _
    exact exprIsSrc_member m
  rw [hfilter, List.getLast?_map, lastSrc]
  cases hlast : (ms.filter fun m => m.1 = "src").getLast? with
  | none => rfl
  | some m =>
    obtain ⟨k, x⟩ := m
    obtain ⟨-, hk⟩ := List.mem_filter.1 (List.mem_of_getLast? hlast)
    obtain rfl : k = "src" := by simpa using hk
    rfl

/-- An object is refused as the head of a list where its last `src` would be misread. -/
theorem foreign_iff : Foreign (obj ms) ↔ ∃ v, lastSrc ms = some v ∧ v.readBack.Misread := by
  rw [Foreign, exprSrcOf, getLast?_exprIsSrc]
  cases lastSrc ms with
  | none => simp
  | some v =>
    have hvalue : exprSrcValue (.str "src" :: .colon :: v.item.text) = v.item.text := rfl
    simp only [Option.map_some, hvalue, Option.some.injEq, exists_eq_left']
    have hop : ∀ o, exprSrcOp (.str "src" :: .colon :: v.item.text) = some o ↔
        v.readBack = scalar (.str o.text) := by
      intro o
      rw [Spelled.exprSrcOp_member_iff, text_eq_str_iff]
      simp
    cases ho : exprSrcOp (.str "src" :: .colon :: v.item.text) with
    | some o => simp [Misread, (hop o).1 ho]
    | none =>
      have hnone : ∀ o : Source, v.readBack ≠ scalar (.str o.text) := by
        intro o hv
        rw [(hop o).2 hv] at ho
        cases ho
      rw [Misread, and_iff_left hnone, ← exprSrcRead_item]
      cases exprSrcRead v.item.text <;> simp

/-! ## At every depth -/

theorem refused_iff_within {t : Json ν} :
    t.Refused ↔ ∃ xs, Within (list xs) t ∧ ∃ x ∈ xs.head?, x.Foreign := by
  induction t using Json.induction with
  | scalar v =>
    refine iff_of_false id ?_
    rintro ⟨xs, h, -⟩
    cases h
  | list ys ih =>
    rw [Refused, refusedAll_iff]
    constructor
    · rintro (hlead | ⟨y, hy, hr⟩)
      · exact ⟨ys, .self, hlead⟩
      · obtain ⟨xs, hw, hlead⟩ := (ih y hy).1 hr
        exact ⟨xs, .element hy hw, hlead⟩
    · rintro ⟨xs, hw, hlead⟩
      cases hw with
      | self => exact Or.inl hlead
      | @element y _ hy hw => exact Or.inr ⟨y, hy, (ih y hy).2 ⟨xs, hw, hlead⟩⟩
  | obj ms ih =>
    rw [Refused, refusedMembers_iff]
    constructor
    · rintro ⟨⟨k, y⟩, hy, hr⟩
      obtain ⟨xs, hw, hlead⟩ := (ih _ hy).1 hr
      exact ⟨xs, .member hy hw, hlead⟩
    · rintro ⟨xs, hw, hlead⟩
      cases hw with
      | @member k y _ hy hw => exact ⟨(k, y), hy, (ih _ hy).2 ⟨xs, hw, hlead⟩⟩

/-- The trees that are refused are those with a list that would be misread. -/
theorem refused_iff {t : Json ν} : t.Refused ↔ t.Unrepresentable := by
  rw [refused_iff_within]
  constructor
  · rintro ⟨xs, hw, x, hx, hforeign⟩
    cases x with
    | obj ms =>
      obtain ⟨v, hv, hmis⟩ := foreign_iff.1 hforeign
      exact ⟨xs, ms, v, hw, hx, hv, hmis⟩
    | scalar v | list ys => exact hforeign.elim
  · rintro ⟨xs, ms, v, hw, hx, hv, hmis⟩
    exact ⟨xs, hw, obj ms, hx, foreign_iff.2 ⟨v, hv, hmis⟩⟩

end Json

variable [Zero ν] [DecidableEq ν] {t : Json ν}

/-- A tree that is not written fails as unrepresentable. -/
theorem exprRender_refused (hr : t.Refused) :
    ∃ path src, exprRender t.events = .error (.unrepresentable path src) := by
  have hrun : Builder.run (.within []) t.events = some (.done t) := Builder.run_eq_done_iff.2 rfl
  rcases Simulates.root.scan t.events with ⟨hscan, hrun', hsim⟩ | ⟨hscan, hrun'⟩ | ⟨-, -, -, hscan⟩
  · -- A run that ends with the tree writes it.
    rw [hrun] at hrun'
    obtain rfl := Option.some.inj hrun'
    obtain ⟨failure, hfails⟩ := exprRender_events_fails hr
    rcases hsim.finish with ⟨-, -, hfin⟩ | ⟨hne, -⟩
    · rw [exprRender, hscan] at hfails
      simp [Except.bind, hfin, Except.map] at hfails
    · exact absurd rfl (hne t)
  · rw [hrun] at hrun'
    cases hrun'
  · rw [exprRender, hscan]
    exact ⟨_, _, rfl⟩

/-- The characters of the text a member is held as. -/
def Spelled.member (h : Host ν) (k : String) (x : Json ν) : List Char :=
  h.quoted k ++ ':' :: h.spell x.item.text

theorem Spelled.member_eq (h : Host ν) (k : String) (x : Json ν) :
    member h k x = h.spell (.str k :: .colon :: x.item.text) := rfl

theorem Json.apart_item (x : Json ν) : x.item.Apart := by
  induction x using Json.induction with
  | scalar v => exact apart_exprScalarItem v
  | list xs ih =>
    rw [item, items_eq_map]
    apply apart_exprArray
    intro i hi
    cases xs with
    | nil => cases hi
    | cons x xs =>
      rcases List.mem_cons.1 hi with rfl | hi
      · exact apart_exprLead (ih x List.mem_cons_self)
      · obtain ⟨y, hy, rfl⟩ := List.mem_map.1 hi
        exact ih y (List.mem_cons_of_mem _ hy)
  | obj ms ih =>
    refine Item.apart_atom (apart_mapText fun p hp => ?_) _
    rw [parts_eq_map] at hp
    obtain ⟨m, hm, rfl⟩ := List.mem_map.1 hp
    exact ⟨m.1, _, rfl, (ih m hm).text⟩

/-- The render fails as unrepresentable just on the trees with a list that would be misread, and its
tests of a member's characters find its key, its value and what it would be read as. -/
theorem exprRender_unrepresentable_iff (h : Host ν) :
    (∀ t : Json ν, (∃ path src, Spelled.exprRender h t.events = .error (.unrepresentable path src)) ↔
      t.Unrepresentable) ∧
    ∀ (k : String) (x : Json ν),
      (Spelled.exprIsSrc (Spelled.member h k x) = true ↔ k = "src") ∧
      (∀ o, Spelled.exprSrcOp (Spelled.member h k x) = some o ↔
        k = "src" ∧ x.readBack = .scalar (.str o.text)) ∧
      (k = "src" → Spelled.exprSrcValue (Spelled.member h k x) = h.spell x.item.text) ∧
      (Spelled.exprSrcRead h (h.spell x.item.text) = false ↔ x.readBack.Falsy) := by
  refine ⟨fun t => ?_, fun k x => ⟨?_, fun o => ?_, ?_, ?_⟩⟩
  · rw [Spelled.exprRender_eq, ← Json.refused_iff]
    constructor
    · rintro ⟨path, src, hfail⟩
      by_contra hr
      rw [exprRender_events hr] at hfail
      cases hfail
    · intro hr
      obtain ⟨path, src, hfail⟩ := exprRender_refused hr
      rw [hfail]
      exact ⟨path, h.spell src, rfl⟩
  · rw [Spelled.member_eq, Spelled.exprIsSrc_spell]
  · rw [Spelled.member_eq, Spelled.exprSrcOp_spell, Spelled.exprSrcOp_member_iff, Json.text_eq_str_iff]
  · rintro rfl
    rw [Spelled.member_eq, Spelled.exprSrcValue_spell]
  · rw [Spelled.exprSrcRead_spell x.apart_item.text, Json.exprSrcRead_item]

/-- `{"a":["+",[{"src":"+","src":"x"},1]]}` is refused, for the last `src` of the object. -/
theorem exprRender_unrepresentable_json :
    ∃ path src, Spelled.exprRender jsonHost (Json.obj [("a", .list [.scalar (.str "+"),
      .list [.obj [("src", .scalar (.str "+")), ("src", .scalar (.str "x"))],
        .scalar (.num (.finite false 1))]])]).events = .error (.unrepresentable path src) := by
  refine ((exprRender_unrepresentable_iff jsonHost).1 _).2
    ⟨_, _, _, .member List.mem_cons_self (.element (List.mem_cons_of_mem _ List.mem_cons_self) .self),
      rfl, rfl, by simp [Json.readBack, Json.Falsy], fun o => ?_⟩
  cases o <;> simp [Json.readBack, Source.text]

end TabnasExpr.Render
