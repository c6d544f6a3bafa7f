import TabnasExpr.Render.Reading
import TabnasExpr.Render.Recursive

/-!
# The render round trip

What the render writes of a tree is read back as the tree, each list head that describes a default
operator replaced by its source text.  The render chooses by class where a term needs grouping, and
`Binds` says what a class stands for among the powers.
-/

namespace TabnasExpr.Render

open OpTree OpTree.Tree

universe u

variable {ν : Type u}

namespace Json

/-- The default operator a string is the source text of. -/
def source : Json ν → Option Source
  | scalar (.str s) => Source.ofText s
  | _ => none

/-- The default operator an object describes by its `src`. -/
def describes : Json ν → Option Source
  | obj ms => (ms.lookup "src").bind source
  | _ => none

mutual

/-- A tree with each list head that describes a default operator replaced by its source text. -/
def norm : Json ν → Json ν
  | scalar v => scalar v
  | list xs => list (normList xs)
  | obj ms => obj (normMembers ms)

/-- The elements of a list. -/
def normList : List (Json ν) → List (Json ν)
  | [] => []
  | x :: xs =>
    (match describes x with
    | some o => scalar (.str o.text)
    | none => norm x) :: normAll xs

def normAll : List (Json ν) → List (Json ν)
  | [] => []
  | x :: xs => norm x :: normAll xs

def normMembers : List (String × Json ν) → List (String × Json ν)
  | [] => []
  | (k, x) :: ms => (k, norm x) :: normMembers ms

end

/-- The first element of a list, its operator's source text where it describes one. -/
def normHead (x : Json ν) : Json ν :=
  match describes x with
  | some o => scalar (.str o.text)
  | none => norm x

theorem normList_cons (x : Json ν) (xs : List (Json ν)) :
    normList (x :: xs) = normHead x :: normAll xs := rfl

mutual

/-- A tree as a value of the reader. -/
def value : Json ν → Value ν
  | scalar v => .scalar v
  | list xs => .list (valueAll xs)
  | obj ms => .map (valueMembers ms)

def valueAll : List (Json ν) → List (Value ν)
  | [] => []
  | x :: xs => value x :: valueAll xs

def valueMembers : List (String × Json ν) → List (String × Value ν)
  | [] => []
  | (k, x) :: ms => (k, value x) :: valueMembers ms

end

mutual

/-- Every number is finite and has no sign, and the keys of every object are distinct. -/
def Proper : Json ν → Prop
  | scalar v => ∀ n, v = .num n → ∃ m, n = .finite false m
  | list xs => ProperAll xs
  | obj ms => (ms.map Prod.fst).Nodup ∧ ProperMembers ms

def ProperAll : List (Json ν) → Prop
  | [] => True
  | x :: xs => Proper x ∧ ProperAll xs

def ProperMembers : List (String × Json ν) → Prop
  | [] => True
  | (_, x) :: ms => Proper x ∧ ProperMembers ms

end

end Json

/-! ## Classes and powers -/

/-- The left power an operator may have, at most, to take an operand of a class whole. -/
def Class.power : Class → ℤ
  | infix2 => 2000000
  | infix3 => 3000000
  | atom => 4000000

/-- How a sequence of a class binds: its infix operators at least as tightly as the class says, and
an operator that binds at most as tightly takes it whole. -/
structure Binds (c : Class) (e : Seq (Value ν)) : Prop where
  noSuffix : e.NoSuffix
  tight : ∀ q ∈ e.infixes, c.power ≤ q.left
  takes : ∀ o : Op, o.left ≤ c.power → Takes o e.tree
  single : c = .atom → ∃ ps v, e = .lead ps v

theorem binds_operand (v : Value ν) : Binds .atom (.lead [] v) where
  noSuffix := trivial
  tight := by simp [Seq.infixes]
  takes _ _ := trivial
  single _ := ⟨[], v, rfl⟩

theorem right_of_prefixOp {s : Source} {p : Op} (hp : s.prefixOp = some p) : p.right = 4000000 := by
  cases s <;> cases hp <;> rfl

/-- A prefix operator of the default table binds more tightly than every infix one. -/
theorem binds_under {s : Source} {o : Op} (ho : s.prefixOp = some o) {e : Seq (Value ν)}
    (h : Binds .atom e) : Binds .atom (e.under [o]) := by
  obtain ⟨ps, v, rfl⟩ := h.single rfl
  refine ⟨trivial, by simp [Seq.under, Seq.infixes], fun q hq => ?_, fun _ => ⟨_, _, rfl⟩⟩
  show q.left ≤ o.right
  rw [right_of_prefixOp ho]
  exact hq

theorem powers_of_infixOp {s : Source} {o : Op} (ho : s.infixOp = some o) :
    o.left = (exprLevel s).power ∧ o.right = (exprLevel s).power + 100000 := by
  cases s <;> cases ho <;> exact ⟨rfl, rfl⟩

theorem exprLevel_ne_atom (s : Source) : exprLevel s ≠ .atom := by
  cases s <;> decide

/-- An infix operation: the left operand binds at least as tightly as the operator, and the right one
more tightly. -/
theorem binds_append {s : Source} {o : Op} (ho : s.infixOp = some o) {c d : Class}
    {e f : Seq (Value ν)} (he : Binds c e) (hc : (exprLevel s).power ≤ c.power) (hf : Binds d f)
    (hd : (exprLevel s).power + 100000 < d.power) :
    (e.append o f).tree = inf o e.tree f.tree ∧ Binds (exprLevel s) (e.append o f) := by
  obtain ⟨hleft, hright⟩ := powers_of_infixOp ho
  have htree : (e.append o f).tree = inf o e.tree f.tree := by
    apply Seq.tree_append hf.noSuffix
    · exact he.takes o (hleft ▸ hc)
    · intro q hq
      have := hf.tight q hq
      omega
  refine ⟨htree, he.noSuffix.append hf.noSuffix, fun q hq => ?_, fun q hq => ?_, fun h => ?_⟩
  · rw [Seq.infixes_append, List.mem_append, List.mem_cons] at hq
    rcases hq with hq | rfl | hq
    · have := he.tight q hq
      omega
    · omega
    · have := hf.tight q hq
      omega
  · rw [htree]
    show q.left ≤ o.right
    omega
  · exact absurd h (exprLevel_ne_atom s)

/-! ## What an item is read as -/

/-- A text is read as a sequence with a value. -/
structure ReadsAs (lang : Lang) (t : Text ν) (e : Seq (Value ν)) (v : Value ν) : Prop where
  reads : Reads lang t e
  kinded : e.Kinded
  value : valueOf e.tree = some v

section Written

variable [Zero ν] [DecidableEq ν]

/-- An item is read as a sequence of its class, and its text as a list as a value that is simplified
in the same way. -/
structure Written (lang : Lang) (i : Item ν) (e : Seq (Value ν)) (v l : Value ν) : Prop
    extends ReadsAs lang i.text e v where
  binds : Binds i.cls e
  list : Reads lang i.list (.lead [] l)
  same : l.simplify = v.simplify

variable {lang : Lang} {t : Text ν} {i a b : Item ν} {e f : Seq (Value ν)} {v w l m : Value ν}
  {vs : List (Value ν)}

omit [Zero ν] [DecidableEq ν] in
theorem readsAs_operand (h : Reads lang t (.lead [] v)) : ReadsAs lang t (.lead [] v) v :=
  ⟨h, by simp [Seq.Kinded], rfl⟩

/-- An item that is written in one way only. -/
theorem written_atom (h : Reads lang t (.lead [] v)) (head : Option Source) :
    Written lang (.atom t head) (.lead [] v) v v :=
  ⟨readsAs_operand h, binds_operand v, h, rfl⟩

/-- A text that stands for a term, and how tightly it binds. -/
def Stands (lang : Lang) (t : Text ν) (v : Value ν) (P : Class → Prop) : Prop :=
  ∃ c e w, ReadsAs lang t e w ∧ w.simplify = v.simplify ∧ Binds c e ∧ P c

theorem Written.whole (h : Written lang i e v l) {P : Class → Prop} (hP : P i.cls) :
    Stands lang i.text v P :=
  ⟨i.cls, e, v, h.toReadsAs, rfl, h.binds, hP⟩

theorem Written.grouped (h : Written lang i e v l) {P : Class → Prop} (hP : P .atom) :
    Stands lang i.list v P :=
  ⟨.atom, .lead [] l, l, readsAs_operand h.list, h.same, binds_operand l, hP⟩

/-- A left term binds at least as tightly as the operator. -/
theorem Written.left (h : Written lang i e v l) {level : Class} (hl : level ≠ .atom) :
    Stands lang (exprLeft i level) v fun c => level.power ≤ c.power := by
  unfold exprLeft
  cases hc : i.cls with
  | atom =>
    apply h.whole
    rw [hc]
    cases level <;> decide
  | infix3 =>
    apply h.whole
    rw [hc]
    cases level with
    | atom => exact absurd rfl hl
    | infix2 | infix3 => decide
  | infix2 =>
    cases level with
    | atom => exact absurd rfl hl
    | infix2 =>
      apply h.whole
      rw [hc]
    | infix3 =>
      apply h.grouped
      decide

/-- A right term binds more tightly than the operator. -/
theorem Written.right (h : Written lang i e v l) {level : Class} (hl : level ≠ .atom) :
    Stands lang (exprRight i level) v fun c => level.power + 100000 < c.power := by
  unfold exprRight
  cases hc : i.cls with
  | atom =>
    apply h.whole
    rw [hc]
    cases level with
    | atom => exact absurd rfl hl
    | infix2 | infix3 => decide
  | infix3 =>
    cases level with
    | atom => exact absurd rfl hl
    | infix2 =>
      apply h.whole
      rw [hc]
      decide
    | infix3 =>
      apply h.grouped
      decide
  | infix2 =>
    apply h.grouped
    cases level with
    | atom => exact absurd rfl hl
    | infix2 | infix3 => decide

/-- A prefix operator's term binds more tightly than every infix operator. -/
theorem Written.term (h : Written lang i e v l) :
    Stands lang (exprTerm i) v fun c => c = .atom := by
  unfold exprTerm
  cases hc : i.cls with
  | atom => exact h.whole hc
  | infix2 | infix3 => exact h.grouped rfl

/-- An operation that is written in infix. -/
theorem written_infix {s : Source} {o : Op} (ho : s.infixOp = some o)
    (ha : Written lang a e v l) (hb : Written lang b f w m) {u : Value ν} {list : Text ν}
    (hlist : Reads lang list (.lead [] u))
    (hu : u.simplify = .list [.scalar (.str s.text), v.simplify, w.simplify]) :
    ∃ e' v', Written lang ⟨exprLeft a (exprLevel s) ++ .op s :: exprRight b (exprLevel s),
      exprLevel s, list, none⟩ e' v' u ∧ v'.readSrc = none := by
  obtain ⟨c, e₁, v₁, h₁, hv₁, hb₁, hc⟩ := ha.left (exprLevel_ne_atom s)
  obtain ⟨d, e₂, v₂, h₂, hv₂, hb₂, hd⟩ := hb.right (exprLevel_ne_atom s)
  obtain ⟨hsrc, hkind⟩ := Source.infixOp_eq_some ho
  obtain ⟨htree, hbinds⟩ := binds_append ho hb₁ hc hb₂ hd
  refine ⟨e₁.append o e₂, .op o [v₁, v₂],
    ⟨⟨h₁.reads.append h₂.reads ho, h₁.kinded.append hkind h₂.kinded, ?_⟩, hbinds, hlist, ?_⟩, rfl⟩
  · rw [htree, valueOf, h₁.value, h₂.value]
    rfl
  · rw [hu, Value.simplify, hsrc]
    simp [hv₁, hv₂]

/-- An operation of a prefix operator. -/
theorem written_prefix {s : Source} {o : Op} (ho : s.prefixOp = some o)
    (ha : Written lang a e v l) {u : Value ν} {list : Text ν} (hlist : Reads lang list (.lead [] u))
    (hu : u.simplify = .list [.scalar (.str s.text), v.simplify]) :
    ∃ e' v', Written lang ⟨.op s :: exprTerm a, .atom, list, none⟩ e' v' u ∧
      v'.readSrc = none := by
  obtain ⟨c, e₁, v₁, h₁, hv₁, hb₁, rfl⟩ := ha.term
  obtain ⟨ps, x, rfl⟩ := hb₁.single rfl
  obtain ⟨hsrc, hkind⟩ := Source.prefixOp_eq_some ho
  refine ⟨_, .op o [v₁], ⟨⟨h₁.reads.under ho, ?_, ?_⟩, binds_under ho hb₁, hlist, ?_⟩, rfl⟩
  · intro p hp
    rcases List.mem_cons.1 hp with rfl | hp
    · exact hkind
    · exact h₁.kinded p hp
  · have htree : (Seq.under [o] (.lead ps x)).tree = pre o (Seq.tree (.lead ps x)) := rfl
    rw [htree, valueOf, h₁.value]
    rfl
  · rw [hu, Value.simplify, hsrc]
    simp [hv₁]

/-- A group. -/
theorem written_group (h : Reads lang t (.lead [] (.op plain vs))) {u : Value ν} {list : Text ν}
    (hlist : Reads lang list (.lead [] u))
    (hu : u.simplify = (Value.op plain vs).simplify) :
    Written lang ⟨t, .atom, list, none⟩ (.lead [] (.op plain vs)) (.op plain vs) u :=
  ⟨readsAs_operand h, binds_operand _, hlist, hu⟩

/-- An item that has a reading with the value given. -/
def HasValue (lang : Lang) (i : Item ν) (v : Value ν) : Prop := ∃ e l, Written lang i e v l

theorem HasValue.readsValue (h : HasValue lang i v) : ReadsValue lang i.text v := by
  obtain ⟨e, l, h⟩ := h
  exact ⟨e, h.reads, h.kinded, h.value⟩

theorem simplify_list (hsrc : ∀ v ∈ vs.head?, v.readSrc = none) :
    (Value.list vs).simplify = .list (vs.map Value.simplify) := by
  cases vs with
  | nil => rfl
  | cons v vs =>
    have hv : v.readSrc = none := hsrc v rfl
    simp [Value.simplify, Value.simplifyList, hv]

variable {is : List (Item ν)}

theorem reads_exprList (h : List.Forall₂ (HasValue lang) is vs) :
    Reads lang (exprList is) (.lead [] (.list vs)) := by
  apply reads_list
  rw [List.forall₂_map_left_iff]
  exact h.imp fun _ _ => HasValue.readsValue

/-- A held list, ended, is read as a value that is simplified as the list of its elements' values. -/
theorem written_array (h : List.Forall₂ (HasValue lang) is vs)
    (hhead : ∀ i ∈ is.head?, ∀ o, i.head = some o → vs.head? = some (.scalar (.str o.text)))
    (hsrc : ∀ v ∈ vs.head?, v.readSrc = none) :
    ∃ v, HasValue lang (exprArray is) v ∧ v.simplify = .list (vs.map Value.simplify) ∧
      v.readSrc = none := by
  have hlist := reads_exprList h
  have hs := simplify_list hsrc
  -- A list that is no operation.
  have hplain : ∃ v, HasValue lang (.atom (exprList is) none) v ∧
      v.simplify = .list (vs.map Value.simplify) ∧ v.readSrc = none :=
    ⟨.list vs, ⟨_, _, written_atom hlist none⟩, hs, rfl⟩
  match is, vs, h with
  | [], [], .nil => exact hplain
  | [i], [v], .cons hi .nil =>
    cases ho : i.head with
    | none => simpa [exprArray, ho] using hplain
    | some o =>
      obtain rfl : v = .scalar (.str o.text) := by simpa using hhead i rfl o ho
      cases o with
      | paren =>
        simp only [exprArray, ho]
        exact ⟨_, ⟨_, _, written_group reads_paren_nil hlist (by rw [hs]; rfl)⟩, by rfl, rfl⟩
      | plus | minus | star | slash | percent => simpa [exprArray, ho] using hplain
  | [i, x], [v, w], .cons hi (.cons hx .nil) =>
    cases ho : i.head with
    | none => simpa [exprArray, ho] using hplain
    | some o =>
      obtain rfl : v = .scalar (.str o.text) := by simpa using hhead i rfl o ho
      obtain ⟨e, l, hw⟩ := hx
      cases o with
      | paren =>
        simp only [exprArray, ho]
        have hx : ReadsValue lang x.text w := HasValue.readsValue ⟨e, l, hw⟩
        refine ⟨_, ⟨_, _, written_group hx.paren hlist ?_⟩, ?_, rfl⟩
        · rw [hs]
          simp [Value.simplify, plain, parenDef, Source.text]
        · simp [Value.simplify, plain, parenDef, Source.text]
      | plus | minus =>
        simp only [exprArray, ho]
        obtain ⟨e', v', hv', hsrc'⟩ := written_prefix rfl hw hlist hs
        exact ⟨v', ⟨_, _, hv'⟩, hv'.same.symm.trans hs, hsrc'⟩
      | star | slash | percent => simpa [exprArray, ho] using hplain
  | [i, x, y], [v, w, u], .cons hi (.cons hx (.cons hy .nil)) =>
    cases ho : i.head with
    | none => simpa [exprArray, exprInfix, ho] using hplain
    | some o =>
      obtain rfl : v = .scalar (.str o.text) := by simpa using hhead i rfl o ho
      obtain ⟨e, l, hw⟩ := hx
      obtain ⟨f, m, hu⟩ := hy
      cases o with
      | paren => simpa [exprArray, exprInfix, ho] using hplain
      | plus | minus | star | slash | percent =>
        simp only [exprArray, exprInfix, ho]
        obtain ⟨e', v', hv', hsrc'⟩ := written_infix rfl hw hu hlist hs
        exact ⟨v', ⟨_, _, hv'⟩, hv'.same.symm.trans hs, hsrc'⟩
  | _ :: _ :: _ :: _ :: _, _, _ => exact hplain

/-! ## Trees -/

/-- A tree is read back as a value that is simplified to the tree. -/
structure Denotes (lang : Lang) (t : Json ν) (v : Value ν) : Prop where
  hasValue : HasValue lang t.item v
  simplify : v.simplify = t.norm.value

theorem hasValue_scalar (s : Scalar ν) (h : ∀ n, s = .num n → ∃ m, n = .finite false m) :
    HasValue lang (exprScalarItem s) (.scalar s) :=
  ⟨_, _, written_atom (reads_scalar s h) _⟩

/-- A text of one scalar is read as that scalar only. -/
theorem HasValue.eq_scalar {s : Scalar ν} (h : HasValue lang i v) (ht : i.text = exprScalarText s)
    (hs : ∀ n, s = .num n → ∃ m, n = .finite false m) : v = .scalar s := by
  obtain ⟨e, l, h⟩ := h
  obtain rfl := Reads.unique h.reads (ht ▸ reads_scalar s hs)
  exact (Option.some.inj h.value).symm

section Members

variable {ms : List (String × Json ν)} {ns : List (String × Value ν)}

/-- The members of an object and those of a value, one by one. -/
def DenotesMember (lang : Lang) (m : String × Json ν) (n : String × Value ν) : Prop :=
  n.1 = m.1 ∧ Denotes lang m.2 n.2

theorem keys_eq (h : List.Forall₂ (DenotesMember lang) ms ns) :
    ns.map Prod.fst = ms.map Prod.fst := by
  induction h with
  | nil => rfl
  | cons hm _ ih => rw [List.map_cons, List.map_cons, hm.1, ih]

theorem readsMember_parts (h : List.Forall₂ (DenotesMember lang) ms ns) :
    List.Forall₂ (ReadsMember lang) (Json.parts ms) ns := by
  induction h with
  | nil => exact .nil
  | @cons m n ms ns hm _ ih =>
    refine .cons ⟨m.2.item.text, ?_, hm.2.hasValue.readsValue⟩ ih
    rw [hm.1]

theorem simplifyMembers_eq (h : List.Forall₂ (DenotesMember lang) ms ns) :
    Value.simplifyMembers ns = Json.valueMembers (Json.normMembers ms) := by
  induction h with
  | nil => rfl
  | @cons m n ms ns hm _ ih =>
    obtain ⟨k, x⟩ := m
    obtain ⟨k', v⟩ := n
    obtain ⟨rfl, hx⟩ := hm
    rw [Value.simplifyMembers, ih, hx.simplify]
    rfl

theorem lookup_cases (h : List.Forall₂ (DenotesMember lang) ms ns) (k : String) :
    (ms.lookup k = none ∧ ns.lookup k = none) ∨
      ∃ x v, ms.lookup k = some x ∧ ns.lookup k = some v ∧ Denotes lang x v := by
  induction h with
  | nil => exact Or.inl ⟨rfl, rfl⟩
  | @cons m n ms ns hm _ ih =>
    obtain ⟨k', x⟩ := m
    obtain ⟨k'', v⟩ := n
    obtain ⟨rfl, hx⟩ := hm
    by_cases hk : k = k''
    · subst hk
      exact Or.inr ⟨x, v, List.lookup_cons_self, List.lookup_cons_self, hx⟩
    · have hbeq : (k == k'') = false := by simpa using hk
      simpa only [List.lookup_cons, hbeq] using ih

/-- With distinct keys, at most one member is the `src`. -/
theorem filter_exprIsSrc (hkeys : (ms.map Prod.fst).Nodup) :
    (Json.parts ms).filter exprIsSrc =
      ((ms.lookup "src").map fun x => .str "src" :: .colon :: x.item.text).toList := by
  induction ms with
  | nil => rfl
  | cons m ms ih =>
    obtain ⟨k, x⟩ := m
    have hih := ih (List.nodup_cons.1 hkeys).2
    by_cases hk : k = "src"
    · subst hk
      have hnone : ms.lookup "src" = none := by
        rw [List.lookup_eq_none_iff]
        intro m hm
        rw [bne_iff_ne]
        intro he
        exact (List.nodup_cons.1 hkeys).1 (List.mem_map.2 ⟨m, hm, he.symm⟩)
      rw [hnone] at hih
      rw [Json.parts, List.filter_cons_of_pos rfl, hih]
      simp
    · have hno : ¬ exprIsSrc (.str k :: .colon :: x.item.text) = true := by
        simp [exprIsSrc, hk]
      have hbeq : ("src" == k) = false := by simpa using Ne.symm hk
      rw [Json.parts, List.filter_cons_of_neg hno, hih]
      simp only [List.lookup_cons, hbeq]

/-- The operator a `src` member names is the one its value is the source text of. -/
theorem exprSrcOp_eq {x : Json ν} (hx : Denotes lang x v) :
    exprSrcOp (.str "src" :: .colon :: x.item.text) = x.source := by
  by_cases h : ∃ s, x.item.text = [.str s]
  · obtain ⟨s, hs⟩ := h
    have hv := hx.hasValue.eq_scalar (s := .str s) hs (by simp)
    have hsimp := hx.simplify
    rw [hv] at hsimp
    cases x with
    | scalar s' =>
      cases hsimp
      rfl
    | list xs | obj ms => cases hsimp
  · have hnone : x.source = none := by
      cases x with
      | scalar s' =>
        cases s' with
        | str s => exact absurd ⟨s, rfl⟩ h
        | null | bool b | num n => rfl
      | list xs | obj ms => rfl
    rw [hnone, exprSrcOp]
    intro s hs
    exact h ⟨s, by simpa using hs⟩

/-- The item of an object records the operator it describes. -/
theorem head_obj (h : List.Forall₂ (DenotesMember lang) ms ns) (hkeys : (ms.map Prod.fst).Nodup) :
    (Json.obj ms).item.head = (Json.obj ms).describes := by
  show (exprSrcOf (Json.parts ms)).head = (ms.lookup "src").bind Json.source
  rw [exprSrcOf, filter_exprIsSrc hkeys]
  rcases lookup_cases h "src" with ⟨hms, -⟩ | ⟨x, v, hms, -, hx⟩
  · rw [hms]
    rfl
  · simp only [hms, Option.map_some, Option.toList_some, List.getLast?_singleton, exprSrcOp_eq hx]
    show _ = x.source
    cases x.source with
    | some o => rfl
    | none =>
      simp only
      split_ifs <;> rfl

/-- An object that is neither a description nor refused has no `src` that counts as true. -/
theorem readSrc_map (h : List.Forall₂ (DenotesMember lang) ms ns) (hkeys : (ms.map Prod.fst).Nodup)
    (hf : ¬ (Json.obj ms).Foreign) (hhead : (Json.obj ms).item.head = none) :
    (Value.map ns).readSrc = none := by
  rw [head_obj h hkeys] at hhead
  rcases lookup_cases h "src" with ⟨-, hns⟩ | ⟨x, v, hms, hns, hx⟩
  · simp [Value.readSrc, hns]
  · have hsource : x.source = none := by
      simpa [Json.describes, hms] using hhead
    have hread : exprSrcRead x.item.text = false := by
      by_contra hread
      refine hf ⟨x.item.text, ?_⟩
      rw [exprSrcOf, filter_exprIsSrc hkeys, hms]
      simp [exprSrcOp_eq hx, hsource, exprSrcValue, hread]
    have hfalse : v.truthy = false := by
      unfold exprSrcRead at hread
      split at hread
      · rename_i ht
        rw [hx.hasValue.eq_scalar (s := .str "") ht (by simp)]
        rfl
      · rename_i ht
        rw [hx.hasValue.eq_scalar (s := .bool false) ht (by simp)]
        rfl
      · rename_i ht
        rw [hx.hasValue.eq_scalar (s := .null) ht (by simp)]
        rfl
      · rename_i n ht
        rw [hx.hasValue.eq_scalar (s := .num (.finite false n)) ht (by simp)]
        simpa [Value.truthy] using hread
      · contradiction
    simp [Value.readSrc, hns, hfalse]

end Members

/-- What is read back of a tree, and what it makes of a list it leads. -/
structure Restored (lang : Lang) (t : Json ν) (v : Value ν) : Prop extends Denotes lang t v where
  plain : ¬ t.Foreign → t.item.head = none → v.readSrc = none ∧ t.normHead = t.norm
  op : ∀ o, t.item.head = some o → t.normHead = .scalar (.str o.text)

theorem restored_scalar {s : Scalar ν} (h : (Json.scalar s).Proper) :
    Restored lang (.scalar s) (.scalar s) where
  hasValue := hasValue_scalar s h
  simplify := rfl
  plain _ _ := ⟨rfl, rfl⟩
  op o ho := by
    cases s with
    | str s =>
      rw [Source.ofText_eq_some_iff.1 ho]
      rfl
    | null | bool b | num n => cases ho

theorem restored_obj {ms : List (String × Json ν)} {ns : List (String × Value ν)}
    (h : List.Forall₂ (DenotesMember lang) ms ns) (hkeys : (ms.map Prod.fst).Nodup) :
    Restored lang (.obj ms) (.map ns) where
  hasValue := ⟨_, _, written_atom (reads_map (readsMember_parts h) (keys_eq h ▸ hkeys)) _⟩
  simplify := by
    rw [Value.simplify, simplifyMembers_eq h]
    rfl
  plain hf hhead := by
    refine ⟨readSrc_map h hkeys hf hhead, ?_⟩
    rw [head_obj h hkeys] at hhead
    rw [Json.normHead, hhead]
  op o ho := by
    rw [head_obj h hkeys] at ho
    rw [Json.normHead, ho]

section List

variable {x : Json ν} {xs : List (Json ν)}

theorem forall₂_hasValue (h : List.Forall₂ (Restored lang) xs vs) :
    List.Forall₂ (HasValue lang) (xs.map Json.item) vs := by
  rw [List.forall₂_map_left_iff]
  exact h.imp fun _ _ hx => hx.hasValue

theorem map_simplify (h : List.Forall₂ (Restored lang) xs vs) :
    vs.map Value.simplify = Json.valueAll (Json.normAll xs) := by
  induction h with
  | nil => rfl
  | cons hx _ ih =>
    rw [List.map_cons, ih, hx.simplify]
    rfl

theorem restored_list (h : List.Forall₂ (Restored lang) xs vs)
    (hlead : ∀ x ∈ xs.head?, ¬ x.Foreign) : ∃ v, Restored lang (.list xs) v := by
  -- The value of the list, from the values of its elements as the list holds them.
  suffices ∃ v, HasValue lang (Json.list xs).item v ∧
      v.simplify = .list (Json.valueAll (Json.normList xs)) ∧ v.readSrc = none by
    obtain ⟨v, hv, hsimp, hsrc⟩ := this
    refine ⟨v, ⟨hv, hsimp⟩, fun _ _ => ⟨hsrc, rfl⟩, fun o ho => ?_⟩
    exact absurd ((head_exprArray _).symm.trans ho) (by simp)
  rw [Json.item, Json.items_eq_map]
  cases h with
  | nil => exact written_array .nil (by simp) (by simp)
  | @cons x v xs vs hx hxs =>
    rw [Json.normList_cons, List.map_cons, leadItems]
    have htail := forall₂_hasValue hxs
    cases hhead : x.item.head with
    | none =>
      obtain ⟨hsrc, hnorm⟩ := hx.plain (hlead x rfl) hhead
      have hlead : exprLead [] x.item = x.item := by simp [exprLead, hhead]
      rw [hlead, hnorm]
      obtain ⟨w, hw, hsimp, hwsrc⟩ := written_array (.cons hx.hasValue htail) (by simp [hhead])
        (by simpa using hsrc)
      refine ⟨w, hw, ?_, hwsrc⟩
      rw [hsimp, List.map_cons, hx.simplify, map_simplify hxs]
      rfl
    | some o =>
      have hlead : exprLead [] x.item = exprScalarItem (.str o.text) := by simp [exprLead, hhead]
      rw [hlead, hx.op o hhead]
      have hop : HasValue lang (exprScalarItem (.str o.text) : Item ν) (.scalar (.str o.text)) :=
        hasValue_scalar _ (by simp)
      have hof : exprOp (.str o.text : Scalar ν) = some o := Source.ofText_eq_some_iff.2 rfl
      obtain ⟨w, hw, hsimp, hwsrc⟩ := written_array (.cons hop htail)
        (by simp [exprScalarItem, Item.atom, hof]) (by simp [Value.readSrc])
      refine ⟨w, hw, ?_, hwsrc⟩
      rw [hsimp, List.map_cons, map_simplify hxs]
      rfl

end List

/-- One thing for each. -/
theorem exists_forall₂ {β γ : Type u} {R : β → γ → Prop} {xs : List β} (h : ∀ x ∈ xs, ∃ y, R x y) :
    ∃ ys, List.Forall₂ R xs ys := by
  induction xs with
  | nil => exact ⟨[], .nil⟩
  | cons x xs ih =>
    obtain ⟨y, hy⟩ := h x List.mem_cons_self
    obtain ⟨ys, hys⟩ := ih fun z hz => h z (List.mem_cons_of_mem _ hz)
    exact ⟨y :: ys, .cons hy hys⟩

omit [Zero ν] [DecidableEq ν] in
theorem properAll_iff {xs : List (Json ν)} : Json.ProperAll xs ↔ ∀ x ∈ xs, x.Proper := by
  induction xs with
  | nil => simp [Json.ProperAll]
  | cons x xs ih => simp [Json.ProperAll, ih]

omit [Zero ν] [DecidableEq ν] in
theorem properMembers_iff {ms : List (String × Json ν)} :
    Json.ProperMembers ms ↔ ∀ m ∈ ms, m.2.Proper := by
  induction ms with
  | nil => simp [Json.ProperMembers]
  | cons m ms ih => simp [Json.ProperMembers, ih]

theorem exists_restored (lang : Lang) (t : Json ν) (ht : t.Proper) (hr : ¬ t.Refused) :
    ∃ v, Restored lang t v := by
  induction t using Json.induction with
  | scalar s => exact ⟨_, restored_scalar ht⟩
  | list xs ih =>
    rw [Json.Refused, Json.refusedAll_iff, not_or] at hr
    obtain ⟨vs, hvs⟩ := exists_forall₂ fun x hx =>
      ih x hx (properAll_iff.1 ht x hx) fun hxr => hr.2 ⟨x, hx, hxr⟩
    exact restored_list hvs fun x hx hf => hr.1 ⟨x, hx, hf⟩
  | obj ms ih =>
    rw [Json.Refused, Json.refusedMembers_iff] at hr
    obtain ⟨ns, hns⟩ : ∃ ns, List.Forall₂ (DenotesMember lang) ms ns := by
      apply exists_forall₂
      intro m hm
      obtain ⟨v, hv⟩ := ih m hm (properMembers_iff.1 ht.2 m hm) fun hmr => hr ⟨m, hm, hmr⟩
      exact ⟨(m.1, v), rfl, hv.toDenotes⟩
    exact ⟨_, restored_obj hns ht.1⟩

end Written

section RoundTrip

variable [Zero ν] [DecidableEq ν]

/-- What the render writes of a tree is read back, and simplified, as the tree with each list head that
describes a default operator replaced by its source text. -/
theorem read_exprRender (lang : Lang) {t : Json ν} (ht : t.Proper) {text : Text ν}
    (h : exprRender t.events = .ok text) :
    ∃ v, Reader.read lang text = some v ∧ v.simplify = t.norm.value := by
  have hr : ¬ t.Refused := by
    intro hr
    obtain ⟨failure, hfail⟩ := exprRender_events_fails hr
    rw [h] at hfail
    cases hfail
  rw [exprRender_events hr] at h
  cases h
  obtain ⟨v, hv⟩ := exists_restored lang t ht hr
  exact ⟨v, hv.hasValue.readsValue.read, hv.simplify⟩

/-- `[{"src":"+"},1,["*",["-",2],["(",3]]]` is written as `1+-2*(3)`. -/
theorem read_exprRender_default :
    ∃ v, Reader.read Lang.rust [.num 1, .op .plus, .op .minus, .num 2, .op .star, .op .paren,
        .num 3, .closeParen, .newline] = some v ∧
      v.simplify = .list [.scalar (.str "+"), .scalar (.num (.finite false 1)),
        .list [.scalar (.str "*"),
          .list [.scalar (.str "-"), .scalar (.num (.finite false 2))],
          .list [.scalar (.str "("), .scalar (.num (.finite false 3))]]] := by
  have h : exprRender (Json.events (.list [.obj [("src", .scalar (.str "+"))],
      .scalar (.num (.finite false 1)), .list [.scalar (.str "*"),
        .list [.scalar (.str "-"), .scalar (.num (.finite false 2))],
        .list [.scalar (.str "("), .scalar (.num (.finite false 3))]]])) =
      .ok [.num 1, .op .plus, .op .minus, .num 2, .op .star, .op .paren, .num 3, .closeParen,
        .newline] := rfl
  obtain ⟨v, hv, hsimp⟩ := read_exprRender .rust
    (by simp [Json.Proper, Json.ProperAll, Json.ProperMembers]) h
  exact ⟨v, hv, hsimp⟩

end RoundTrip

end TabnasExpr.Render
