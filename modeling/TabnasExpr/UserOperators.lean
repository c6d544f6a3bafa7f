import TabnasExpr.Resolve

/-!
# User operators beside the default ones

The Go port puts its default operators beside the operators of a user, makes an operator of every
definition in the order of their names, and enters them by token, so that the last one with a source
stands.  A default is left out when the user has its name, or a paren with both of its sources.
-/

namespace TabnasExpr.Go

universe u

variable {υ τ : Type u}

/-! ## Option tables -/

/-- What is given as `Src`: a text, a list whose members need not be texts, or something else. -/
inductive Src where
  | text (s : String)
  | list (xs : List (Option String))
  | other
  deriving DecidableEq

/-- A definition as the options give it; a power not given is zero. -/
structure UserDef (υ : Type u) where
  src : Src
  osrc : String
  csrc : String
  left : ℤ
  right : ℤ
  kinds : List Kind
  preval : Option PrevalDef
  use : Option υ
  deriving DecidableEq

/-- The operators of a user by name; a name may be there with nothing to it. -/
structure UserOps (υ : Type u) where
  entries : List (String × Option (UserDef υ))
  nodup : (entries.map Prod.fst).Nodup

/-- The two texts `makeAllOps` reads of a ternary.  It fails on a list whose first two members are not
texts. -/
def Src.pair : Src → Option (String × String)
  | .list (some s :: some t :: _) => some (s, t)
  | .list (_ :: _ :: _) => none
  | _ => some ("", "")

/-- The text `makeAllOps` reads of an operator that is neither a ternary nor a paren. -/
def Src.single : Src → String
  | .text s => s
  | _ => ""

/-- What `makeAllOps` reads of a definition: the source of a paren is its opener and closer. -/
def UserDef.read (d : UserDef υ) : Option (OpDef υ) :=
  if h : .ternaryOp ∈ d.kinds then
    (if .parenOp ∈ d.kinds then some ("", "") else d.src.pair).map fun p =>
      ⟨.pair p.1 p.2, d.osrc, d.csrc, some d.left, some d.right, d.kinds, d.preval, d.use, by simp [h]⟩
  else
    some ⟨.text d.src.single, d.osrc, d.csrc, some d.left, some d.right, d.kinds, d.preval, d.use,
      by simp [h]⟩

/-! ## The default operators -/

/-- A default operator with a source of its own. -/
def defaultAnyfix (k : Kind) (left right : ℤ) (src : String) : UserDef υ :=
  ⟨.text src, "", "", left, right, [k], none, none⟩

/-- `defaults` of `addDefaultOps`. -/
def defaults : List (String × UserDef υ) :=
  [("positive", defaultAnyfix .prefixOp 0 4000000 "+"),
    ("negative", defaultAnyfix .prefixOp 0 4000000 "-"),
    ("addition", defaultAnyfix .infixOp 2000000 2100000 "+"),
    ("subtraction", defaultAnyfix .infixOp 2000000 2100000 "-"),
    ("multiplication", defaultAnyfix .infixOp 3000000 3100000 "*"),
    ("division", defaultAnyfix .infixOp 3000000 3100000 "/"),
    ("remainder", defaultAnyfix .infixOp 3000000 3100000 "%"),
    ("plain", ⟨.other, "(", ")", 0, 0, [.parenOp], none, none⟩)]

/-- A paren of the user has both sources of a default one. -/
def conflict (def' : UserDef υ) (existing : Option (UserDef υ)) : Bool :=
  match existing with
  | none => false
  | some d => .parenOp ∈ d.kinds ∧ d.osrc = def'.osrc ∧ d.csrc = def'.csrc

/-- A default is added when the user has neither its name nor, for a paren, its two sources. -/
def isAdded (ops : List (String × Option (UserDef υ))) (e : String × UserDef υ) : Bool :=
  !(ops.map Prod.fst).contains e.1 &&
    !(.parenOp ∈ e.2.kinds && ops.any fun o => conflict e.2 o.2)

/-- `addDefaultOps(eopts)`. -/
def addDefaultOps (ops : List (String × Option (UserDef υ))) : List (String × Option (UserDef υ)) :=
  ops ++ (defaults.filter (isAdded ops)).map fun e => (e.1, some e.2)

/-! ## Lookup maps -/

/-- The definitions that are there, as `makeAllOps` reads them. -/
def readAll : List (String × Option (UserDef υ)) → Option (List (String × OpDef υ))
  | [] => some []
  | (_, none) :: es => readAll es
  | (name, some d) :: es => do
    let d ← d.read
    let es ← readAll es
    some ((name, d) :: es)

/-- What an operator is looked up by: the source of its kind, or the opener or closer of a paren. -/
inductive Lookup where
  | anyfix (k : Kind) (s : String)
  | opener (s : String)
  | closer (s : String)
  deriving DecidableEq

section Maps

variable (tin : String → τ)

/-- The operators of `makeAllOps`, each beside its name in the table. -/
def made (T : List (String × OpDef υ)) : List (String × TokenOp τ υ) :=
  (T.insertionSort fun a b => a.1 ≤ b.1).map fun e => (e.1, makeOp tin e.1 e.2)

theorem map_snd_made (T : List (String × OpDef υ)) :
    (made tin T).map Prod.snd = makeAllOps tin T := by
  simp [made, makeAllOps]

variable [DecidableEq τ]

/-- An operator is entered in the map of a lookup, at its token. -/
def Lookup.enters (op : TokenOp τ υ) : Lookup → Bool
  | .anyfix k s => k ∈ op.kinds ∧ op.tin = some (tin s)
  | .opener s => .parenOp ∈ op.kinds ∧ op.otin = some (tin s)
  | .closer s => .parenOp ∈ op.kinds ∧ op.ctin = some (tin s)

/-- The operator the lookup maps hold, the last one entered, with its name in the table. -/
def lookup (q : Lookup) (ops : List (String × TokenOp τ υ)) : Option (String × TokenOp τ υ) :=
  ops.reverse.find? fun o => q.enters tin o.2

/-- What is found in the map of a kind is the last operator entered. -/
theorem byTin_get (k : Kind) (token : TokenOp τ υ → Option τ) (ops : List (TokenOp τ υ)) (t : τ) :
    (byTin k token ops).get t =
      (ops.reverse.find? fun op => k ∈ op.kinds ∧ token op = some t).map TokenOp.toResolved := by
  unfold OpMap.get byTin
  rw [← List.filterMap_reverse, ← List.filter_reverse]
  induction ops.reverse with
  | nil => rfl
  | cons op ops ih =>
    by_cases hk : k ∈ op.kinds
    · cases ht : token op with
      | none => simpa [hk, ht] using ih
      | some t' =>
        by_cases htt : t' = t
        · simp [hk, ht, htt]
        · simpa [hk, ht, htt] using ih
    · simpa [hk] using ih

/-- The lookup maps of the source hold what `lookup` finds. -/
theorem map_lookup (q : Lookup) (ops : List (String × TokenOp τ υ)) :
    (lookup tin q ops).map (fun o => o.2.toResolved) =
      match q with
      | .anyfix k s => (byTin k TokenOp.tin (ops.map Prod.snd)).get (tin s)
      | .opener s => (byTin .parenOp TokenOp.otin (ops.map Prod.snd)).get (tin s)
      | .closer s => (byTin .parenOp TokenOp.ctin (ops.map Prod.snd)).get (tin s) := by
  cases q <;> simp only [byTin_get, lookup, Lookup.enters, ← List.map_reverse, List.find?_map,
    Option.map_map, Function.comp_def]

end Maps

/-- The lookups a definition is for. -/
def UserDef.lookups (d : UserDef υ) : List Lookup :=
  d.kinds.flatMap fun k =>
    if k = .parenOp then [.opener d.osrc, .closer d.csrc] else [.anyfix k d.src.single]

/-- The text an operator other than a paren is entered under. -/
def UserDef.lead (d : UserDef υ) : String :=
  if .ternaryOp ∈ d.kinds then (d.src.pair.getD ("", "")).1 else d.src.single

/-- `makeAllOps` does not fail on a definition. -/
def UserDef.Readable (d : UserDef υ) : Prop :=
  .ternaryOp ∈ d.kinds → .parenOp ∉ d.kinds → d.src.pair ≠ none

section Entries

variable (tin : String → τ)

/-- An operator made of a definition is entered where a lookup looks: a definition with the flag of
a paren is entered as a paren only, and one with that of a ternary under its first text. -/
def UserDef.Writes (d : UserDef υ) : Lookup → Prop
  | .anyfix k s => k ∈ d.kinds ∧ .parenOp ∉ d.kinds ∧ tin d.lead = tin s
  | .opener s => .parenOp ∈ d.kinds ∧ tin d.osrc = tin s
  | .closer s => .parenOp ∈ d.kinds ∧ tin d.csrc = tin s

variable [DecidableEq τ]

theorem read_eq_none {d : UserDef υ} : d.read = none ↔ ¬ d.Readable := by
  unfold UserDef.read UserDef.Readable
  by_cases ht : .ternaryOp ∈ d.kinds <;> by_cases hp : .parenOp ∈ d.kinds <;> simp [ht, hp]

/-- The flags and source texts of a definition are read as they are. -/
theorem read_fields {d : UserDef υ} {d' : OpDef υ} (h : d.read = some d') :
    d'.kinds = d.kinds ∧ d'.osrc = d.osrc ∧ d'.csrc = d.csrc ∧
      (.parenOp ∉ d.kinds →
        (if .ternaryOp ∈ d.kinds then (readPair d'.src).1 else d'.src.first) = d.lead) := by
  unfold UserDef.read at h
  split_ifs at h with ht hp
  · obtain rfl := Option.some.inj h
    exact ⟨rfl, rfl, rfl, fun hn => absurd hp hn⟩
  · obtain ⟨p, hsrc, rfl⟩ := Option.map_eq_some_iff.1 h
    exact ⟨rfl, rfl, rfl, fun _ => by simp [UserDef.lead, ht, hsrc, readPair]⟩
  · obtain rfl := Option.some.inj h
    exact ⟨rfl, rfl, rfl, fun _ => by simp [UserDef.lead, ht, Source.first]⟩

/-- Where an operator is entered does not depend on its name. -/
theorem enters_makeOp {d : UserDef υ} {d' : OpDef υ} (h : d.read = some d') (name : String)
    (q : Lookup) :
    q.enters tin (makeOp tin name d') = true ↔ d.Writes tin q := by
  obtain ⟨hk, ho, hc, hsrc⟩ := read_fields h
  by_cases hp : .parenOp ∈ d.kinds
  · cases q <;> simp [Lookup.enters, UserDef.Writes, makeOp, baseOp, hk, hp, ho, hc]
  · have hsrc := hsrc hp
    by_cases ht : .ternaryOp ∈ d.kinds
    · rw [if_pos ht] at hsrc
      cases q <;> simp [Lookup.enters, UserDef.Writes, makeOp, baseOp, hk, hp, ht, hsrc]
    · rw [if_neg ht] at hsrc
      cases q <;> simp [Lookup.enters, UserDef.Writes, makeOp, baseOp, hk, hp, ht, hsrc]

end Entries

/-! ## The last one in the order of names -/

theorem find?_reverse_eq_some_iff {β : Type*} {l : List (String × β)} {p : String × β → Bool}
    {x : String × β} (hs : l.Pairwise fun a b => a.1 ≤ b.1) (hn : (l.map Prod.fst).Nodup) :
    l.reverse.find? p = some x ↔ x ∈ l ∧ p x ∧ ∀ y ∈ l, p y → y.1 ≤ x.1 := by
  have hrev : l.reverse.Pairwise fun a b => b.1 ≤ a.1 := List.pairwise_reverse.2 hs
  constructor
  · intro h
    obtain ⟨hx, as, bs, hl, has⟩ := List.find?_eq_some_iff_append.1 h
    refine ⟨List.mem_reverse.1 (by simp [hl]), hx, fun y hy hpy => ?_⟩
    rw [hl] at hrev
    have hy : y ∈ as ++ x :: bs := hl ▸ List.mem_reverse.2 hy
    rcases List.mem_append.1 hy with hy | hy
    · exact absurd hpy (by simpa using has y hy)
    · rcases List.mem_cons.1 hy with rfl | hy
      · exact String.le_refl _
      · exact (List.pairwise_cons.1 (List.pairwise_append.1 hrev).2.1).1 y hy
  · rintro ⟨hx, hpx, hmax⟩
    obtain ⟨as, bs, hl⟩ := List.append_of_mem (List.mem_reverse.2 hx)
    refine List.find?_eq_some_iff_append.2 ⟨hpx, as, bs, hl, fun a ha => ?_⟩
    -- an operator after the last one has its name
    have hxa : x.1 ≤ a.1 := (List.pairwise_append.1 (hl ▸ hrev)).2.2 a ha x List.mem_cons_self
    have hn : ((as ++ x :: bs).map Prod.fst).Nodup := by
      rw [← hl, List.map_reverse]
      exact List.nodup_reverse.2 hn
    by_contra hpa
    have hax := hmax a (List.mem_reverse.1 (by simp [hl, ha])) (by simpa using hpa)
    rw [List.map_append, List.nodup_append] at hn
    exact hn.2.2 _ (List.mem_map_of_mem ha) _ List.mem_cons_self (String.le_antisymm hax hxa)

section Resolution

variable (tin : String → τ)

theorem mem_made {T : List (String × OpDef υ)} {o : String × TokenOp τ υ} :
    o ∈ made tin T ↔ ∃ d, (o.1, d) ∈ T ∧ o.2 = makeOp tin o.1 d := by
  simp only [made, List.mem_map, List.mem_insertionSort]
  constructor
  · rintro ⟨e, he, rfl⟩
    exact ⟨e.2, he, rfl⟩
  · rintro ⟨d, hd, ho⟩
    exact ⟨_, hd, Prod.ext rfl ho.symm⟩

theorem pairwise_made (T : List (String × OpDef υ)) :
    (made tin T).Pairwise fun a b => a.1 ≤ b.1 := by
  have : Std.Total fun a b : String × OpDef υ => a.1 ≤ b.1 := ⟨fun a b => String.le_total a.1 b.1⟩
  have : IsTrans (String × OpDef υ) fun a b => a.1 ≤ b.1 := ⟨fun _ _ _ => String.le_trans⟩
  exact List.pairwise_map.2 (List.pairwise_insertionSort _ T)

theorem nodup_made {T : List (String × OpDef υ)} (hT : (T.map Prod.fst).Nodup) :
    ((made tin T).map Prod.fst).Nodup := by
  have h : (made tin T).map Prod.fst = (T.insertionSort fun a b => a.1 ≤ b.1).map Prod.fst := by
    simp [made]
  rw [h]
  exact (((List.perm_insertionSort _ T).map Prod.fst).nodup_iff).2 hT

theorem readAll_cons {n : String} {d : UserDef υ} {es : List (String × Option (UserDef υ))}
    {T : List (String × OpDef υ)} :
    readAll ((n, some d) :: es) = some T ↔
      ∃ d' T', d.read = some d' ∧ readAll es = some T' ∧ T = (n, d') :: T' := by
  cases hd : d.read with
  | none => simp [readAll, hd]
  | some d' =>
    cases hes : readAll es with
    | none => simp [readAll, hd, hes]
    | some T' => simp [readAll, hd, hes, eq_comm]

theorem exists_readAll {es : List (String × Option (UserDef υ))} :
    (∃ T, readAll es = some T) ↔ ∀ n d, (n, some d) ∈ es → d.Readable := by
  induction es with
  | nil => simp [readAll]
  | cons e es ih =>
    obtain ⟨n, _ | d⟩ := e
    · simpa [readAll] using ih
    · constructor
      · rintro ⟨T, h⟩ m c hc
        obtain ⟨d', T', hd, hes, -⟩ := readAll_cons.1 h
        rcases List.mem_cons.1 hc with hc | hc
        · obtain ⟨rfl, hcd⟩ := Prod.mk.inj hc
          obtain rfl := Option.some.inj hcd
          by_contra hr
          simp [read_eq_none.2 hr] at hd
        · exact ih.1 ⟨T', hes⟩ m c hc
      · intro h
        obtain ⟨T', hes⟩ := ih.2 fun m c hc => h m c (List.mem_cons_of_mem _ hc)
        have hd : d.read ≠ none := fun hd => read_eq_none.1 hd (h n d List.mem_cons_self)
        obtain ⟨d', hd⟩ := Option.ne_none_iff_exists'.1 hd
        exact ⟨_, readAll_cons.2 ⟨d', T', hd, hes, rfl⟩⟩

theorem mem_readAll {es : List (String × Option (UserDef υ))} {T : List (String × OpDef υ)}
    (h : readAll es = some T) {n : String} {d' : OpDef υ} :
    (n, d') ∈ T ↔ ∃ d, (n, some d) ∈ es ∧ d.read = some d' := by
  induction es generalizing T with
  | nil =>
    obtain rfl : [] = T := by simpa [readAll] using h
    simp
  | cons e es ih =>
    obtain ⟨m, _ | d⟩ := e
    · simpa using ih h
    · obtain ⟨d₁, T', hd, hes, rfl⟩ := readAll_cons.1 h
      simp only [List.mem_cons, ih hes, Prod.mk.injEq, Option.some.injEq]
      constructor
      · rintro (⟨rfl, rfl⟩ | ⟨c, hc, hr⟩)
        · exact ⟨d, .inl ⟨rfl, rfl⟩, hd⟩
        · exact ⟨c, .inr hc, hr⟩
      · rintro ⟨c, ⟨rfl, rfl⟩ | hc, hr⟩
        · exact .inl ⟨rfl, Option.some.inj (hr.symm.trans hd)⟩
        · exact .inr ⟨c, hc, hr⟩

theorem sublist_readAll {es : List (String × Option (UserDef υ))} {T : List (String × OpDef υ)}
    (h : readAll es = some T) : (T.map Prod.fst).Sublist (es.map Prod.fst) := by
  induction es generalizing T with
  | nil =>
    obtain rfl : [] = T := by simpa [readAll] using h
    simp
  | cons e es ih =>
    obtain ⟨m, _ | d⟩ := e
    · exact (ih h).cons m
    · obtain ⟨d₁, T', -, hes, rfl⟩ := readAll_cons.1 h
      exact (ih hes).cons_cons m

/-- The table with the default operators, as `makeAllOps` goes through it. -/
def tableOf (U : UserOps υ) : List (String × Option (UserDef υ)) := addDefaultOps U.entries

theorem mem_tableOf {U : UserOps υ} {n : String} {d : UserDef υ} :
    (n, some d) ∈ tableOf U ↔
      (n, some d) ∈ U.entries ∨ (n, d) ∈ defaults ∧ isAdded U.entries (n, d) = true := by
  simp [tableOf, addDefaultOps]

theorem nodup_tableOf (U : UserOps υ) : ((tableOf U).map Prod.fst).Nodup := by
  have hd : (defaults : List (String × UserDef υ)).map Prod.fst = ["positive", "negative", "addition",
      "subtraction", "multiplication", "division", "remainder", "plain"] := rfl
  have hnd : ((defaults.filter (isAdded U.entries)).map Prod.fst).Nodup := by
    refine List.Nodup.sublist (List.filter_sublist.map Prod.fst) ?_
    rw [hd]
    decide
  simp only [tableOf, addDefaultOps, List.map_append, List.map_map, Function.comp_def]
  refine List.nodup_append.2 ⟨U.nodup, hnd, ?_⟩
  rintro n hn m hm rfl
  obtain ⟨e, he, rfl⟩ := List.mem_map.1 hm
  obtain ⟨d, hd⟩ : ∃ d, (e.1, d) ∈ U.entries := by simpa using hn
  have hadd := (List.mem_filter.1 he).2
  simp only [isAdded, Bool.and_eq_true, Bool.not_eq_true', List.contains_eq_mem,
    decide_eq_false_iff_not]
    at hadd
  exact hadd.1 (List.mem_map_of_mem hd)

variable [DecidableEq τ]

/-- The lookup maps hold the last of the definitions entered there, in the order of names. -/
theorem lookup_eq {U : UserOps υ} {T : List (String × OpDef υ)} (hT : readAll (tableOf U) = some T)
    (q : Lookup) (n : String) :
    (∃ op, lookup tin q (made tin T) = some (n, op)) ↔
      (∃ d, (n, some d) ∈ tableOf U ∧ d.Writes tin q) ∧
        ∀ m c, (m, some c) ∈ tableOf U → c.Writes tin q → m ≤ n := by
  have hnd := nodup_made tin ((nodup_tableOf U).sublist (sublist_readAll hT))
  have hentry (m : String) (op : TokenOp τ υ) : (m, op) ∈ made tin T ∧ q.enters tin op = true ↔
      ∃ d d', (m, some d) ∈ tableOf U ∧ d.read = some d' ∧ op = makeOp tin m d' ∧ d.Writes tin q := by
    rw [mem_made]
    constructor
    · rintro ⟨⟨d', hd', ho⟩, hq⟩
      obtain rfl : op = makeOp tin m d' := ho
      obtain ⟨d, hd, hr⟩ := (mem_readAll hT).1 hd'
      exact ⟨d, d', hd, hr, rfl, (enters_makeOp tin hr m q).1 hq⟩
    · rintro ⟨d, d', hd, hr, rfl, hq⟩
      exact ⟨⟨d', (mem_readAll hT).2 ⟨d, hd, hr⟩, rfl⟩, (enters_makeOp tin hr m q).2 hq⟩
  have hreads {m : String} {c : UserDef υ} (hc : (m, some c) ∈ tableOf U) : ∃ c', c.read = some c' :=
    Option.ne_none_iff_exists'.1 fun hr => read_eq_none.1 hr (exists_readAll.1 ⟨T, hT⟩ m c hc)
  constructor
  · rintro ⟨op, h⟩
    obtain ⟨hmem, hop, hmax⟩ := (find?_reverse_eq_some_iff (pairwise_made tin T) hnd).1 h
    obtain ⟨d, d', hd, -, -, hq⟩ := (hentry n op).1 ⟨hmem, hop⟩
    refine ⟨⟨d, hd, hq⟩, fun m c hc hw => ?_⟩
    obtain ⟨c', hc'⟩ := hreads hc
    obtain ⟨hm, he⟩ := (hentry m _).2 ⟨c, c', hc, hc', rfl, hw⟩
    exact hmax _ hm he
  · rintro ⟨⟨d, hd, hq⟩, hmax⟩
    obtain ⟨d', hd'⟩ := hreads hd
    obtain ⟨hm, he⟩ := (hentry n _).2 ⟨d, d', hd, hd', rfl, hq⟩
    refine ⟨_, (find?_reverse_eq_some_iff (pairwise_made tin T) hnd).2 ⟨hm, he, fun y hy hey => ?_⟩⟩
    obtain ⟨c, c', hc, -, -, hw⟩ := (hentry y.1 y.2).1 ⟨hy, hey⟩
    exact hmax y.1 c hc hw

end Resolution

/-! ## When the user has the last word -/

/-- A user operator has the kind and the source of a lookup. -/
def UserOps.Claims (U : UserOps υ) (q : Lookup) : Prop := ∃ n d, (n, some d) ∈ U.entries ∧ q ∈ d.lookups

section Authority

variable (tin : String → τ)

/-- No operator of the user, and no default that is added, comes after a name where a lookup looks. -/
def UserOps.LastFor (U : UserOps υ) (q : Lookup) (n : String) : Prop :=
  (∀ m c, (m, some c) ∈ U.entries → c.Writes tin q → m ≤ n) ∧
    ∀ m c, (m, c) ∈ defaults → isAdded U.entries (m, c) = true → c.Writes tin q → m ≤ n

/-- The names are such that the order they come in is in favour of the user where he claims a
source, and of the default where he does not. -/
structure Favoured (U : UserOps υ) : Prop where
  readable : ∀ n d, (n, some d) ∈ U.entries → d.Readable
  claimed : ∀ D ∈ (defaults : List (String × UserDef υ)), ∀ q ∈ D.2.lookups, U.Claims q →
    ∃ n d, (n, some d) ∈ U.entries ∧ q ∈ d.lookups ∧ d.Writes tin q ∧ U.LastFor tin q n
  kept : ∀ D ∈ (defaults : List (String × UserDef υ)), ∀ q ∈ D.2.lookups, ¬ U.Claims q →
    D.1 ∉ U.entries.map Prod.fst ∧ U.LastFor tin q D.1

variable [DecidableEq τ]

/-- A user operator with a source of a default one is the one found there, and a default is found at
each of its sources that is not claimed. -/
def Authoritative (U : UserOps υ) : Prop :=
  ∃ T, readAll (tableOf U) = some T ∧
    (∀ D ∈ (defaults : List (String × UserDef υ)), ∀ q ∈ D.2.lookups, U.Claims q →
      ∃ n d op, (n, some d) ∈ U.entries ∧ q ∈ d.lookups ∧ lookup tin q (made tin T) = some (n, op)) ∧
    ∀ D ∈ (defaults : List (String × UserDef υ)), ∀ q ∈ D.2.lookups, ¬ U.Claims q →
      D.1 ∉ U.entries.map Prod.fst ∧ ∃ op, lookup tin q (made tin T) = some (D.1, op)

omit [DecidableEq τ] in
theorem lastFor_iff {U : UserOps υ} {q : Lookup} {n : String} :
    U.LastFor tin q n ↔ ∀ m c, (m, some c) ∈ tableOf U → c.Writes tin q → m ≤ n := by
  simp only [UserOps.LastFor, mem_tableOf, or_imp, and_imp, forall_and]

theorem eq_of_mem_tableOf {U : UserOps υ} {n : String} {d d' : UserDef υ}
    (h : (n, some d) ∈ tableOf U) (h' : (n, some d') ∈ tableOf U) : d = d' := by
  have := List.inj_on_of_nodup_map (nodup_tableOf U) h h' rfl
  exact Option.some.inj (Prod.mk.inj this).2

theorem mem_lookups {d : UserDef υ} {q : Lookup} : q ∈ d.lookups ↔
    (.parenOp ∈ d.kinds ∧ (q = .opener d.osrc ∨ q = .closer d.csrc)) ∨
      ∃ k ∈ d.kinds, k ≠ .parenOp ∧ q = .anyfix k d.src.single := by
  simp only [UserDef.lookups, List.mem_flatMap]
  constructor
  · rintro ⟨k, hk, hq⟩
    by_cases hp : k = .parenOp
    · subst hp
      exact .inl ⟨hk, by simpa using hq⟩
    · exact .inr ⟨k, hk, hp, by simpa [hp] using hq⟩
  · rintro (⟨hk, hq⟩ | ⟨k, hk, hp, rfl⟩)
    · exact ⟨.parenOp, hk, by simpa using hq⟩
    · exact ⟨k, hk, by simp [hp]⟩

omit [DecidableEq τ] in
/-- An operator that is no ternary, nor a paren beside something else, is entered where it is looked
up. -/
theorem writes_of_mem_lookups {d : UserDef υ} (ht : .ternaryOp ∉ d.kinds)
    (hp : .parenOp ∈ d.kinds → d.kinds = [.parenOp]) {q : Lookup} (hq : q ∈ d.lookups) :
    d.Writes tin q := by
  rcases mem_lookups.1 hq with ⟨hk, rfl | rfl⟩ | ⟨k, hk, hne, rfl⟩
  · exact ⟨hk, rfl⟩
  · exact ⟨hk, rfl⟩
  · refine ⟨hk, fun hpk => hne ?_, by simp [UserDef.lead, ht]⟩
    simpa [hp hpk] using hk

/-- A default operator has one kind, and is no ternary. -/
theorem kinds_default {D : String × UserDef υ} (hD : D ∈ defaults) :
    .ternaryOp ∉ D.2.kinds ∧ (.parenOp ∈ D.2.kinds → D.2.kinds = [.parenOp]) := by
  simp only [defaults, List.mem_cons, List.not_mem_nil, or_false] at hD
  rcases hD with rfl | rfl | rfl | rfl | rfl | rfl | rfl | rfl <;> simp [defaultAnyfix]

/-- A paren of the user that keeps a default one out claims both of its sources. -/
theorem isAdded_of_unclaimed {U : UserOps υ} {D : String × UserDef υ} (hD : D ∈ defaults)
    (hn : D.1 ∉ U.entries.map Prod.fst) {q : Lookup} (hq : q ∈ D.2.lookups) (hu : ¬ U.Claims q) :
    isAdded U.entries D = true := by
  have hc : .parenOp ∈ D.2.kinds → ∀ o ∈ U.entries, conflict D.2 o.2 = false := by
    rintro hp ⟨n, _ | d⟩ ho
    · rfl
    · have hne : ¬ (.parenOp ∈ d.kinds ∧ d.osrc = D.2.osrc ∧ d.csrc = D.2.csrc) := by
        rintro ⟨hd, hosrc, hcsrc⟩
        refine hu ⟨n, d, ho, mem_lookups.2 (.inl ⟨hd, ?_⟩)⟩
        rw [hosrc, hcsrc]
        rcases mem_lookups.1 hq with ⟨-, hq⟩ | ⟨k, hk, hne, -⟩
        · exact hq
        · rw [(kinds_default hD).2 hp, List.mem_singleton] at hk
          exact absurd hk hne
      simpa [conflict] using hne
  simp only [isAdded, Bool.and_eq_true, Bool.not_eq_true', List.contains_eq_mem,
    decide_eq_false_iff_not,
    Bool.and_eq_false_iff]
  refine ⟨hn, ?_⟩
  by_cases hp : .parenOp ∈ D.2.kinds
  · exact .inr (List.any_eq_false.2 fun o ho => by simp [hc hp o ho])
  · exact .inl hp

/-- The user has the last word on his sources, and the defaults on the others, exactly when the
names are in their favour. -/
theorem authoritative_iff (U : UserOps υ) : Authoritative tin U ↔ Favoured tin U := by
  constructor
  · rintro ⟨T, hT, hclaimed, hkept⟩
    refine ⟨fun n d hd => ?_, fun D hD q hq hc => ?_, fun D hD q hq hu => ?_⟩
    · exact exists_readAll.1 ⟨T, hT⟩ n d (mem_tableOf.2 (.inl hd))
    · obtain ⟨n, d, op, hd, hqd, hl⟩ := hclaimed D hD q hq hc
      obtain ⟨⟨d', hd', hw⟩, hmax⟩ := (lookup_eq tin hT q n).1 ⟨op, hl⟩
      obtain rfl := eq_of_mem_tableOf (mem_tableOf.2 (.inl hd)) hd'
      exact ⟨n, d, hd, hqd, hw, (lastFor_iff tin).2 hmax⟩
    · obtain ⟨hn, hl⟩ := hkept D hD q hq hu
      exact ⟨hn, (lastFor_iff tin).2 ((lookup_eq tin hT q D.1).1 hl).2⟩
  · intro h
    obtain ⟨T, hT⟩ : ∃ T, readAll (tableOf U) = some T := by
      refine exists_readAll.2 fun n d hd => ?_
      rcases mem_tableOf.1 hd with hd | ⟨hd, -⟩
      · exact h.readable n d hd
      · exact fun ht => absurd ht (kinds_default hd).1
    refine ⟨T, hT, fun D hD q hq hc => ?_, fun D hD q hq hu => ?_⟩
    · obtain ⟨n, d, hd, hqd, hw, hlast⟩ := h.claimed D hD q hq hc
      obtain ⟨op, hop⟩ := (lookup_eq tin hT q n).2
        ⟨⟨d, mem_tableOf.2 (.inl hd), hw⟩, (lastFor_iff tin).1 hlast⟩
      exact ⟨n, d, op, hd, hqd, hop⟩
    · obtain ⟨hn, hlast⟩ := h.kept D hD q hq hu
      refine ⟨hn, (lookup_eq tin hT q D.1).2 ⟨⟨D.2, ?_, ?_⟩, (lastFor_iff tin).1 hlast⟩⟩
      · exact mem_tableOf.2 (.inr ⟨hD, isAdded_of_unclaimed hD hn hq hu⟩)
      · exact writes_of_mem_lookups tin (kinds_default hD).1 (kinds_default hD).2 hq

end Authority

/-! ## A user operator that has not -/

/-- An operator on the source of the default addition, under a name before its own. -/
def aPlus : UserOps String :=
  ⟨[("a-plus", some ⟨.text "+", "", "", 5000000, 5100000, [.infixOp], none, none⟩)], by decide⟩

/-- The default addition is found where a user operator has its source, under a name that comes
before. -/
theorem aPlus_not_authoritative : ¬ Authoritative id aPlus := by
  rintro ⟨T, hT, hclaimed, -⟩
  have hadd : ("addition", defaultAnyfix .infixOp 2000000 2100000 "+") ∈
      (defaults : List (String × UserDef String)) := by simp [defaults]
  have hq : .anyfix .infixOp "+" ∈
      (defaultAnyfix .infixOp 2000000 2100000 "+" : UserDef String).lookups := by
    decide
  obtain ⟨n, d, op, hd, -, hl⟩ :=
    hclaimed _ hadd _ hq ⟨"a-plus", _, List.mem_singleton_self _, by decide⟩
  obtain rfl : n = "a-plus" := by simpa [aPlus] using congrArg Prod.fst (List.mem_singleton.1 hd)
  have hmax := ((lookup_eq id hT _ _).1 ⟨op, hl⟩).2 _ _ (mem_tableOf.2 (.inr ⟨hadd, by decide⟩))
    (writes_of_mem_lookups id (kinds_default hadd).1 (kinds_default hadd).2 hq)
  exact absurd hmax (by decide)

end TabnasExpr.Go
