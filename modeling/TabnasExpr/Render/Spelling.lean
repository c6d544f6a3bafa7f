import TabnasExpr.Lib.Numeral
import TabnasExpr.Lib.Split
import TabnasExpr.Render.Stream

/-!
# How a text is spelled

The render runs on a host, which quotes a string and spells a number; what it is documented to do is in
`Host`.  A text is spelled by the spellings of its lexemes, and the render looks at one where a held
object ends: it tests the members' texts, character by character, for a `src`.
-/

namespace TabnasExpr.Render

open Split

universe u

variable {ν : Type u}

/-- A character that is written as it is in a quoted string: ASCII's printable ones, but for the quote
and the backslash. -/
def Plain (c : Char) : Prop := 32 ≤ c.toNat ∧ c.toNat ≤ 126 ∧ c ≠ '"' ∧ c ≠ '\\'

instance : DecidablePred Plain := fun c => by
  unfold Plain
  infer_instance

/-- The functions of the host: a string is quoted by JSON's escapes, and a number is spelled and
recognized as JSON has it. -/
structure Host (ν : Type u) where
  /-- A character of a quoted string. -/
  escape : Char → List Char
  /-- The text of a number without its sign. -/
  numeral : ν → List Char
  isNumber : List Char → Bool
  number : List Char → Number ν
  /-- A quote and a backslash are escaped, and an escape begins with a backslash. -/
  escape_cases : ∀ c, escape c = [c] ∧ c ≠ '"' ∧ c ≠ '\\' ∨ ∃ cs, escape c = '\\' :: cs
  escape_plain : ∀ c, Plain c → escape c = [c]
  numeral_spec : ∀ n, Numeral (numeral n)
  isNumber_numeral : ∀ n, isNumber (numeral n) = true
  number_numeral : ∀ n, number (numeral n) = .finite false n
  isNumber_spec : ∀ cs, isNumber cs = true → Numeral cs ∨ ∃ ds, cs = '-' :: ds ∧ Numeral ds

/-- Whether a number compares equal to zero. -/
def Number.isZero [Zero ν] [DecidableEq ν] : Number ν → Bool
  | finite _ n => n = 0
  | _ => false

namespace Host

variable (h : Host ν)

def quoted (s : String) : List Char := '"' :: (s.toList.flatMap h.escape ++ ['"'])

/-- The characters of a lexeme. -/
def spellLexeme : Lexeme ν → List Char
  | .str s => h.quoted s
  | .num n => h.numeral n
  | .bool true => ['t', 'r', 'u', 'e']
  | .bool false => ['f', 'a', 'l', 's', 'e']
  | .null => ['n', 'u', 'l', 'l']
  | .op o => o.text.toList
  | .closeParen => [')']
  | .openList => ['[']
  | .closeList => [']']
  | .openMap => ['\x7b']
  | .closeMap => ['\x7d']
  | .comma => [',']
  | .colon => [':']
  | .newline => ['\n']

/-- The characters of a text. -/
def spell (t : Text ν) : List Char := t.flatMap h.spellLexeme

end Host

/-! ## A host of whole numbers -/

/-- A character of a quoted string, as JSON has it: a control character that has no letter of its own is
written by its number. -/
def jsonEscape (c : Char) : List Char :=
  if c = '"' then ['\\', '"']
  else if c = '\\' then ['\\', '\\']
  else if c = '\n' then ['\\', 'n']
  else if c = '\r' then ['\\', 'r']
  else if c = '\t' then ['\\', 't']
  else if c.toNat < 32 then '\\' :: 'u' :: (Nat.toDigits 16 c.toNat).leftpad 4 '0'
  else [c]

/-- Whether a text is digits. -/
def areDigits (cs : List Char) : Bool := cs ≠ [] ∧ cs.all Char.isDigit

theorem numeral_of_areDigits {cs : List Char} (h : areDigits cs = true) : Numeral cs := by
  obtain ⟨hne, hall⟩ : cs ≠ [] ∧ cs.all Char.isDigit = true := of_decide_eq_true h
  have hmk := Numeral.mk ⟨hne, List.all_eq_true.1 hall⟩ .none .none
  rwa [List.append_nil, List.append_nil] at hmk

theorem areDigits_toDigits (n : ℕ) : areDigits (Nat.toDigits 10 n) = true := by
  refine decide_eq_true ⟨Nat.toDigits_ne_nil, List.all_eq_true.2 fun c hc => ?_⟩
  exact Nat.isDigit_of_mem_toDigits (by decide) (by decide) hc

theorem jsonEscape_cases (c : Char) :
    jsonEscape c = [c] ∧ c ≠ '"' ∧ c ≠ '\\' ∨ ∃ cs, jsonEscape c = '\\' :: cs := by
  unfold jsonEscape
  split_ifs with hq hb
  · exact Or.inr ⟨_, rfl⟩
  · exact Or.inr ⟨_, rfl⟩
  · exact Or.inr ⟨_, rfl⟩
  · exact Or.inr ⟨_, rfl⟩
  · exact Or.inr ⟨_, rfl⟩
  · exact Or.inr ⟨_, rfl⟩
  · exact Or.inl ⟨rfl, hq, hb⟩

theorem jsonEscape_plain (c : Char) (hc : Plain c) : jsonEscape c = [c] := by
  obtain ⟨hlow, -, hq, hb⟩ := hc
  have hne : ∀ d : Char, d.toNat < 32 → c ≠ d := by
    rintro d hd rfl
    omega
  rw [jsonEscape, if_neg hq, if_neg hb, if_neg (hne _ (by decide)), if_neg (hne _ (by decide)),
    if_neg (hne _ (by decide)), if_neg (Nat.not_lt.2 hlow)]

/-- Whether a text is a whole number. -/
def isWhole (cs : List Char) : Bool :=
  if cs.head? = some '-' then areDigits cs.tail else areDigits cs

/-- The whole number of a text. -/
def whole (cs : List Char) : Number ℕ :=
  if cs.head? = some '-' then .finite true (Nat.ofDigitChars 10 cs.tail 0)
  else .finite false (Nat.ofDigitChars 10 cs 0)

theorem head?_toDigits (n : ℕ) : (Nat.toDigits 10 n).head? ≠ some '-' := by
  obtain ⟨d, ds, hds, hd⟩ := (numeral_of_areDigits (areDigits_toDigits n)).head
  rw [hds]
  rintro ⟨⟩
  cases hd

theorem isWhole_toDigits (n : ℕ) : isWhole (Nat.toDigits 10 n) = true := by
  rw [isWhole, if_neg (head?_toDigits n), areDigits_toDigits]

theorem whole_toDigits (n : ℕ) : whole (Nat.toDigits 10 n) = .finite false n := by
  rw [whole, if_neg (head?_toDigits n), Nat.ofDigitChars_toDigits (by decide) (by decide)]

theorem numeral_of_isWhole (cs : List Char) (h : isWhole cs = true) :
    Numeral cs ∨ ∃ ds, cs = '-' :: ds ∧ Numeral ds := by
  unfold isWhole at h
  split_ifs at h with hsign
  · obtain ⟨ds, rfl⟩ := List.head?_eq_some_iff.1 hsign
    exact Or.inr ⟨ds, rfl, numeral_of_areDigits h⟩
  · exact Or.inl (numeral_of_areDigits h)

/-- A host whose numbers are whole. -/
def jsonHost : Host ℕ where
  escape := jsonEscape
  numeral := Nat.toDigits 10
  isNumber := isWhole
  number := whole
  escape_cases := jsonEscape_cases
  escape_plain := jsonEscape_plain
  numeral_spec n := numeral_of_areDigits (areDigits_toDigits n)
  isNumber_numeral := isWhole_toDigits
  number_numeral := whole_toDigits
  isNumber_spec := numeral_of_isWhole

/-! ## The tests of a member's text -/

/-- What the text of a `src` member begins with, its key and the colon. -/
def srcKey : List Char := ['"', 's', 'r', 'c', '"', ':']

/-- Whether a string that is not empty begins with another. -/
def exprLeads (lead text : List Char) : Bool := (split lead text).head? = some []

namespace Spelled

/-- The operator a held object's member describes. -/
def exprSrcOp (part : List Char) : Option Source :=
  match String.ofList part with
  | "\"src\":\"+\"" => some .plus
  | "\"src\":\"-\"" => some .minus
  | "\"src\":\"*\"" => some .star
  | "\"src\":\"/\"" => some .slash
  | "\"src\":\"%\"" => some .percent
  | "\"src\":\"(\"" => some .paren
  | _ => none

/-- Whether a held object's member is its `src`. -/
def exprIsSrc (part : List Char) : Bool := exprLeads srcKey part

/-- The text of a `src` member's value: the pieces of the member after the first, with what was cut out
between them. -/
def exprSrcValue (part : List Char) : List Char := srcKey.intercalate (split srcKey part).tail

variable [Zero ν] [DecidableEq ν]

/-- Whether a simplifier takes a list led by an object for an operation, the object's `src` written as
this text. -/
def exprSrcRead (h : Host ν) (text : List Char) : Bool :=
  match String.ofList text with
  | "\"\"" => false
  | "false" => false
  | "null" => false
  | _ =>
    if h.isNumber text then
      match (split ['-'] text).head? with
      | some [] => true
      | _ => !(h.number text).isZero
    else true

/-- What a held object makes of a list it leads. -/
inductive Described where
  | none
  | op (o : Source)
  | foreign (src : List Char)
  deriving DecidableEq

def exprSrcOf (h : Host ν) (parts : List (List Char)) : Described :=
  match (parts.filter exprIsSrc).getLast? with
  | Option.none => .none
  | some part =>
    match exprSrcOp part with
    | some o => .op o
    | Option.none =>
      if exprSrcRead h (exprSrcValue part) then .foreign (exprSrcValue part) else .none

end Spelled

/-! ## Spellings that begin alike -/

/-- The character a default operator's source text is. -/
def Source.char : Source → Char
  | plus => '+'
  | minus => '-'
  | star => '*'
  | slash => '/'
  | percent => '%'
  | paren => '('

theorem Source.toList_text (o : Source) : o.text.toList = [o.char] := by
  cases o <;> rfl

theorem Source.plain_text (o : Source) : ∀ c ∈ o.text.toList, Plain c := by
  rw [o.toList_text]
  cases o <;> simp [Source.char, Plain]

/-- Whether a lexeme is a number. -/
def Lexeme.isNum : Lexeme ν → Bool
  | num _ => true
  | _ => false

namespace Host

variable {h : Host ν} {l : Lexeme ν} {t : Text ν} {w u v : List Char}

@[simp] theorem spell_nil : h.spell [] = [] := rfl

@[simp] theorem spell_cons (l : Lexeme ν) (t : Text ν) :
    h.spell (l :: t) = h.spellLexeme l ++ h.spell t := rfl

/-- A quote ends a quoted string where no backslash escapes it. -/
theorem escaped_eq_iff (hw : ∀ c ∈ w, Plain c) (cs : List Char) :
    cs.flatMap h.escape ++ '"' :: u = w ++ '"' :: v ↔ cs = w ∧ u = v := by
  induction w generalizing cs with
  | nil =>
    cases cs with
    | nil => simp
    | cons c cs =>
      rcases h.escape_cases c with ⟨he, hc, -⟩ | ⟨ds, he⟩
      · simp [he, hc]
      · simp [he]
  | cons d w ih =>
    have hd : Plain d := hw d List.mem_cons_self
    have hrest := ih fun c hc => hw c (List.mem_cons_of_mem _ hc)
    cases cs with
    | nil => simp [Ne.symm hd.2.2.1]
    | cons c cs =>
      rcases h.escape_cases c with ⟨he, -, -⟩ | ⟨ds, he⟩
      · simp [he, hrest, and_assoc]
      · have hne : ¬ c = d := by
          rintro rfl
          rw [h.escape_plain c hd] at he
          exact hd.2.2.2 (List.cons.inj he).1
        simp [he, hne, Ne.symm hd.2.2.2]

theorem quoted_append_eq_iff (hw : ∀ c ∈ w, Plain c) (s : String) :
    h.quoted s ++ u = '"' :: (w ++ '"' :: v) ↔ s.toList = w ∧ u = v := by
  rw [← escaped_eq_iff hw (h := h), quoted, List.cons_append, List.append_assoc,
    List.singleton_append, List.cons_inj_right]

/-- What a lexeme begins with tells the numbers and the strings from the others. -/
theorem exists_spellLexeme (h : Host ν) (l : Lexeme ν) :
    ∃ c cs, h.spellLexeme l = c :: cs ∧ (c.isDigit = true ↔ l.isNum = true) ∧
      (c = '"' ↔ ∃ s, l = .str s) ∧ c ≠ '.' ∧ ¬ IsExponent c := by
  have hexp : ∀ c : Char, c ≠ 'e' → c ≠ 'E' → ¬ IsExponent c := by
    rintro c he hE (hc | hc)
    · exact he hc
    · exact hE hc
  cases l with
  | num n =>
    obtain ⟨d, ds, hds, hd⟩ := (h.numeral_spec n).head
    refine ⟨d, ds, hds, by simp [hd, Lexeme.isNum], ?_, ?_, not_isExponent_of_isDigit hd⟩
    · simp only [reduceCtorEq, exists_false, iff_false]
      rintro rfl
      cases hd
    · rintro rfl
      cases hd
  | str s => exact ⟨_, _, rfl, by simp [Lexeme.isNum], by simp, by decide,
      hexp _ (by decide) (by decide)⟩
  | bool b =>
    cases b <;>
      exact ⟨_, _, rfl, by simp [Lexeme.isNum], by simp, by decide, hexp _ (by decide) (by decide)⟩
  | op o =>
    refine ⟨o.char, [], o.toList_text, ?_⟩
    cases o <;>
      exact ⟨by simp [Lexeme.isNum, Source.char], by simp [Source.char], by decide,
        hexp _ (by decide) (by decide)⟩
  | null | closeParen | openList | closeList | openMap | closeMap | comma | colon | newline =>
    exact ⟨_, _, rfl, by simp [Lexeme.isNum], by simp, by decide, hexp _ (by decide) (by decide)⟩

@[simp] theorem spell_eq_nil : h.spell t = [] ↔ t = [] := by
  cases t with
  | nil => simp
  | cons l t =>
    obtain ⟨c, cs, hl, -⟩ := h.exists_spellLexeme l
    simp [hl]

/-- A text that is spelled as a quoted word is that string. -/
theorem spell_eq_quoted_iff (hw : ∀ c ∈ w, Plain c) :
    h.spell t = '"' :: (w ++ ['"']) ↔ t = [.str (String.ofList w)] := by
  cases t with
  | nil => simp
  | cons l t =>
    by_cases hl : ∃ s, l = .str s
    · obtain ⟨s, rfl⟩ := hl
      rw [spell_cons, spellLexeme, quoted_append_eq_iff hw, spell_eq_nil, List.cons.injEq,
        Lexeme.str.injEq, ← String.toList_inj, String.toList_ofList]
    · obtain ⟨c, cs, hcs, -, hq, -⟩ := h.exists_spellLexeme l
      have hc : c ≠ '"' := fun hc => hl (hq.1 hc)
      refine iff_of_false ?_ ?_
      · rw [spell_cons, hcs, List.cons_append]
        exact fun heq => hc (List.cons.inj heq).1
      · rintro heq
        exact hl ⟨_, (List.cons.inj heq).1⟩

/-- A letter begins a word's spelling only. -/
theorem eq_of_letter {c : Char} {cs : List Char} (hl : h.spellLexeme l = c :: cs) :
    (c = 'f' → l = .bool false) ∧ (c = 'n' → l = .null) := by
  cases l with
  | num n =>
    obtain ⟨d, ds, hds, hd⟩ := (h.numeral_spec n).head
    have hc : c = d := (List.cons.inj (hl.symm.trans hds)).1
    constructor <;>
    · intro hletter
      rw [← hc, hletter] at hd
      cases hd
  | str s =>
    obtain ⟨rfl, -⟩ := List.cons.inj hl
    simp
  | bool b =>
    cases b <;>
    · obtain ⟨rfl, -⟩ := List.cons.inj hl
      simp
  | op o =>
    rw [spellLexeme, o.toList_text] at hl
    obtain ⟨rfl, -⟩ := List.cons.inj hl
    cases o <;> simp [Source.char]
  | null | closeParen | openList | closeList | openMap | closeMap | comma | colon | newline =>
    obtain ⟨rfl, -⟩ := List.cons.inj hl
    simp

theorem exists_cons_of_spell {c : Char} {cs : List Char} (heq : h.spell t = c :: cs) :
    ∃ l u cs', t = l :: u ∧ h.spellLexeme l = c :: cs' := by
  cases t with
  | nil => cases heq
  | cons l u =>
    obtain ⟨c', cs', hcs, -⟩ := h.exists_spellLexeme l
    rw [spell_cons, hcs] at heq
    obtain rfl : c' = c := (List.cons.inj heq).1
    exact ⟨l, u, cs', rfl, hcs⟩

theorem spell_eq_false_iff : h.spell t = ['f', 'a', 'l', 's', 'e'] ↔ t = [.bool false] := by
  constructor
  · intro heq
    obtain ⟨l, u, cs, rfl, hcs⟩ := exists_cons_of_spell heq
    obtain rfl := (eq_of_letter hcs).1 rfl
    simpa [spellLexeme] using heq
  · rintro rfl
    rfl

theorem spell_eq_null_iff : h.spell t = ['n', 'u', 'l', 'l'] ↔ t = [.null] := by
  constructor
  · intro heq
    obtain ⟨l, u, cs, rfl, hcs⟩ := exists_cons_of_spell heq
    obtain rfl := (eq_of_letter hcs).2 rfl
    simpa [spellLexeme] using heq
  · rintro rfl
    rfl

end Host

/-! ## Numbers stand apart -/

/-- No two numbers stand side by side. -/
def Apart (t : Text ν) : Prop := t.IsChain fun a b => a.isNum = true → b.isNum = false

section Apart

variable {t u : Text ν} {l : Lexeme ν}

theorem Apart.singleton (l : Lexeme ν) : Apart [l] := List.IsChain.singleton l

theorem apart_cons (hl : l.isNum = false) : Apart (l :: t) ↔ Apart t := by
  rw [Apart, List.isChain_cons]
  simp [hl, Apart]

theorem apart_append_cons (hl : l.isNum = false) : Apart (t ++ l :: u) ↔ Apart t ∧ Apart u := by
  have hlast : ∀ a ∈ t.getLast?, ∀ b ∈ (l :: u).head?, a.isNum = true → b.isNum = false := by
    rintro a - b hb -
    cases hb
    exact hl
  rw [Apart, List.isChain_append, and_iff_left hlast]
  exact and_congr_right fun _ => apart_cons hl

end Apart

/-- A text that is spelled as a number is one, or begins with a sign. -/
theorem Host.isNumber_spell {h : Host ν} {t : Text ν} (ht : Apart t)
    (hn : h.isNumber (h.spell t) = true) :
    (∃ n, t = [.num n]) ∨ ∃ ds, h.spell t = '-' :: ds := by
  rcases h.isNumber_spec _ hn with hnum | ⟨ds, hds, -⟩
  · left
    cases t with
    | nil =>
      obtain ⟨d, ds, hds, -⟩ := hnum.head
      cases hds
    | cons l t =>
      obtain ⟨c, cs, hl, hdigit, -⟩ := h.exists_spellLexeme l
      obtain ⟨d, ds, hds, hd⟩ := hnum.head
      rw [spell_cons, hl, List.cons_append] at hds
      obtain ⟨rfl, -⟩ := List.cons.inj hds
      obtain ⟨n, rfl⟩ : ∃ n, l = .num n := by
        cases l with
        | num n => exact ⟨n, rfl⟩
        | _ => cases hdigit.1 hd
      cases t with
      | nil => exact ⟨n, rfl⟩
      | cons l' t =>
        -- What follows the number would have to go on with it.
        obtain ⟨c', cs', hl', hdigit', -, hpoint, hexp⟩ := h.exists_spellLexeme l'
        have hl'n : l'.isNum = false := (List.isChain_cons_cons.1 ht).1 rfl
        rw [spell_cons, spell_cons, hl', List.cons_append] at hnum
        rcases (h.numeral_spec n).next hnum with hc | hc | hc
        · rw [hdigit'.1 hc] at hl'n
          cases hl'n
        · exact absurd hc hpoint
        · exact absurd hc hexp
  · exact Or.inr ⟨ds, hds⟩

/-! ## The tests see the member -/

namespace Spelled

variable {h : Host ν} {k : String} {t : Text ν}

theorem plain_src : ∀ c ∈ ['s', 'r', 'c'], Plain c := by
  simp [Plain]

/-- The text of a member begins with `"src":` just where its key is `src`. -/
theorem exprIsSrc_spell : exprIsSrc (h.spell (.str k :: .colon :: t)) = true ↔ k = "src" := by
  have hlead : srcKey <+: h.spell (.str k :: .colon :: t) ↔ k = "src" := by
    constructor
    · rintro ⟨v, hv⟩
      have hk := (Host.quoted_append_eq_iff (h := h) (v := ':' :: v) plain_src k).1 hv.symm
      exact String.toList_inj.1 hk.1
    · rintro rfl
      refine ⟨h.spell t, ?_⟩
      exact ((Host.quoted_append_eq_iff (h := h) (v := ':' :: h.spell t) plain_src "src").2
        ⟨rfl, rfl⟩).symm
  rw [exprIsSrc, exprLeads, decide_eq_true_iff, head?_split (by decide), hlead]
  simp [Host.spell_cons, Host.spellLexeme, Host.quoted]

theorem spell_src : h.spell (.str "src" :: .colon :: t) = srcKey ++ h.spell t := by
  exact (Host.quoted_append_eq_iff (h := h) (v := ':' :: h.spell t) plain_src "src").2 ⟨rfl, rfl⟩

/-- What is cut out of a `src` member and put back is its value's text, whatever stands in it. -/
theorem exprSrcValue_spell : exprSrcValue (h.spell (.str "src" :: .colon :: t)) = h.spell t := by
  rw [spell_src, exprSrcValue, intercalate_tail_split (by decide)]

theorem exprSrcOp_eq_some_iff {part : List Char} {o : Source} :
    exprSrcOp part = some o ↔ part = srcKey ++ '"' :: (o.text.toList ++ ['"']) := by
  constructor
  · intro heq
    unfold exprSrcOp at heq
    split at heq
    case h_7 => cases heq
    all_goals
      rename_i hpart
      cases heq
      rw [← String.toList_ofList (l := part), hpart]
      rfl
  · rintro rfl
    cases o <;> rfl

theorem exprSrcOp_member_iff {o : Source} :
    Render.exprSrcOp (.str k :: .colon :: t) = some o ↔ k = "src" ∧ t = [.str o.text] := by
  constructor
  · intro heq
    unfold Render.exprSrcOp at heq
    split at heq
    · rename_i hpart
      cases hpart
      rw [Source.ofText_eq_some_iff.1 heq]
      exact ⟨rfl, rfl⟩
    · cases heq
  · rintro ⟨rfl, rfl⟩
    exact Source.ofText_eq_some_iff.2 rfl

/-- The operator a member's text names is that of a `src` whose value is the operator's source text. -/
theorem exprSrcOp_spell :
    exprSrcOp (h.spell (.str k :: .colon :: t)) = Render.exprSrcOp (.str k :: .colon :: t) := by
  ext o
  rw [exprSrcOp_eq_some_iff, exprSrcOp_member_iff]
  calc h.spell (.str k :: .colon :: t) = srcKey ++ '"' :: (o.text.toList ++ ['"'])
    _ ↔ k.toList = ['s', 'r', 'c'] ∧ ':' :: h.spell t = ':' :: '"' :: (o.text.toList ++ ['"']) :=
      Host.quoted_append_eq_iff (v := ':' :: '"' :: (o.text.toList ++ ['"'])) plain_src k
    _ ↔ k = "src" ∧ t = [.str o.text] := by
      have hk : k.toList = "src".toList ↔ k = "src" := String.toList_inj
      rw [List.cons_inj_right, Host.spell_eq_quoted_iff o.plain_text, String.ofList_toList, ← hk]
      rfl

/-- The text of a held object's member, a key and a value in which numbers stand apart. -/
def IsMember (part : Text ν) : Prop := ∃ k t, part = .str k :: .colon :: t ∧ Apart t

theorem IsMember.exprIsSrc_spell {part : Text ν} (hp : IsMember part) :
    exprIsSrc (h.spell part) = Render.exprIsSrc part := by
  obtain ⟨k, t, rfl, -⟩ := hp
  have hsrc : Render.exprIsSrc (.str k :: .colon :: t) = true ↔ k = "src" := by
    unfold Render.exprIsSrc
    split
    · rename_i hpart
      cases hpart
      simp
    · rename_i hpart
      refine iff_of_false (by simp) ?_
      rintro rfl
      exact hpart t rfl
  rw [Bool.eq_iff_iff, hsrc, Spelled.exprIsSrc_spell]

variable [Zero ν] [DecidableEq ν]

theorem exprSrcRead_eq_false_iff {text : List Char} :
    exprSrcRead h text = false ↔
      text = ['"', '"'] ∨ text = ['f', 'a', 'l', 's', 'e'] ∨ text = ['n', 'u', 'l', 'l'] ∨
        h.isNumber text = true ∧ ¬ (text = [] ∨ ['-'] <+: text) ∧ (h.number text).isZero = true := by
  have hofList : ∀ w : String, String.ofList text = w ↔ text = w.toList := by
    intro w
    rw [← String.toList_inj, String.toList_ofList]
  unfold exprSrcRead
  split
  · rename_i hw
    exact iff_of_true rfl (Or.inl ((hofList _).1 hw))
  · rename_i hw
    exact iff_of_true rfl (Or.inr (Or.inl ((hofList _).1 hw)))
  · rename_i hw
    exact iff_of_true rfl (Or.inr (Or.inr (Or.inl ((hofList _).1 hw))))
  · rename_i hempty hfalse hnull
    have hempty' : text ≠ ['"', '"'] := fun he => hempty ((hofList _).2 he)
    have hfalse' : text ≠ ['f', 'a', 'l', 's', 'e'] := fun he => hfalse ((hofList _).2 he)
    have hnull' : text ≠ ['n', 'u', 'l', 'l'] := fun he => hnull ((hofList _).2 he)
    have hlead : (split ['-'] text).head? = some [] ↔ text = [] ∨ ['-'] <+: text :=
      head?_split (by decide)
    rw [or_iff_right hempty', or_iff_right hfalse', or_iff_right hnull', ← hlead]
    by_cases hn : h.isNumber text = true
    · rw [if_pos hn, and_iff_right hn]
      split
      · rename_i hsign
        simp [hsign]
      · rename_i hsign
        rw [and_iff_right hsign, Bool.not_eq_false']
    · rw [if_neg hn]
      simp [hn]

theorem exprSrcRead_text_iff :
    Render.exprSrcRead t = false ↔ t = [.str ""] ∨ t = [.bool false] ∨ t = [.null] ∨ t = [.num 0] := by
  unfold Render.exprSrcRead
  split
  · simp
  · simp
  · simp
  · simp
  · rename_i hempty hfalse hnull hnum
    refine iff_of_false (by simp) ?_
    rintro (he | he | he | he)
    · exact hempty he
    · exact hfalse he
    · exact hnull he
    · exact hnum 0 he

/-- The value a member's text has is read as it stands, where no two numbers stand side by side in
it. -/
theorem exprSrcRead_spell (ht : Apart t) : exprSrcRead h (h.spell t) = Render.exprSrcRead t := by
  have hempty : h.spell t = ['"', '"'] ↔ t = [.str ""] :=
    Host.spell_eq_quoted_iff (w := []) (by simp)
  have hnum : (h.isNumber (h.spell t) = true ∧ ¬ (h.spell t = [] ∨ ['-'] <+: h.spell t) ∧
      (h.number (h.spell t)).isZero = true) ↔ t = [.num 0] := by
    constructor
    · rintro ⟨hn, hsign, hz⟩
      rcases Host.isNumber_spell ht hn with ⟨n, rfl⟩ | ⟨ds, hds⟩
      · have hspell : h.spell [.num n] = h.numeral n := List.append_nil _
        rw [hspell, h.number_numeral] at hz
        have hzero : n = 0 := by simpa [Number.isZero] using hz
        rw [hzero]
      · exact absurd (Or.inr ⟨ds, hds.symm⟩) hsign
    · rintro rfl
      have hspell : h.spell [.num 0] = h.numeral 0 := List.append_nil _
      obtain ⟨d, ds, hds, hd⟩ := (h.numeral_spec 0).head
      refine ⟨by rw [hspell, h.isNumber_numeral], ?_, by simp [hspell, h.number_numeral, Number.isZero]⟩
      rw [hspell, hds]
      rintro (hnil | ⟨v, hv⟩)
      · cases hnil
      · rw [← (List.cons.inj hv).1] at hd
        cases hd
  rw [Bool.eq_iff_iff, ← not_iff_not, Bool.not_eq_true, Bool.not_eq_true, exprSrcRead_eq_false_iff,
    exprSrcRead_text_iff, hempty, Host.spell_eq_false_iff, Host.spell_eq_null_iff, hnum]

/-- What an object is taken for, the text of its `src` as it is written. -/
def Described.ofText (h : Host ν) : Render.Described ν → Described
  | .none => .none
  | .op o => .op o
  | .foreign src => .foreign (h.spell src)

/-- The tests of the members' characters find what the members are. -/
theorem exprSrcOf_spell {parts : List (Text ν)} (hp : ∀ p ∈ parts, IsMember p) :
    exprSrcOf h (parts.map h.spell) = .ofText h (Render.exprSrcOf parts) := by
  have hfilter : (parts.map h.spell).filter exprIsSrc =
      (parts.filter Render.exprIsSrc).map h.spell := by
    rw [List.filter_map]
    congr 1
    apply List.filter_congr
    intro p hpmem
    exact (hp p hpmem).exprIsSrc_spell
  rw [exprSrcOf, Render.exprSrcOf, hfilter, List.getLast?_map]
  cases hlast : (parts.filter Render.exprIsSrc).getLast? with
  | none => rfl
  | some part =>
    obtain ⟨hmem, hsrc⟩ := List.mem_filter.1 (List.mem_of_getLast? hlast)
    have hmember := hp part hmem
    rw [← hmember.exprIsSrc_spell (h := h)] at hsrc
    obtain ⟨k, t, rfl, ht⟩ := hmember
    obtain rfl := Spelled.exprIsSrc_spell.1 hsrc
    have hvalue : Render.exprSrcValue (.str "src" :: .colon :: t) = t := rfl
    simp only [Option.map_some, exprSrcOp_spell, exprSrcValue_spell, exprSrcRead_spell ht, hvalue]
    cases Render.exprSrcOp (.str "src" :: .colon :: t) with
    | some o => rfl
    | none =>
      simp only
      split_ifs <;> rfl

end Spelled

end TabnasExpr.Render
