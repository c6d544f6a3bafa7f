import Mathlib.Data.List.Pairwise
import Mathlib.Tactic.Tauto
import TabnasExpr.Resolve

/-!
# When the ports resolve an operator table alike

A resolved operator is to carry what its definition says: the name, the powers, the number of terms, the
custom data and the preval settings.  TypeScript drops the custom data and the list of values a
paren may follow, and takes a `preval` of `false` for one that is there.  Go makes one record for
all kinds of a definition, reads powers on parens, puts the kind behind the name of every ternary, and
does not read the texts of one given as a list of strings.  A table whose definitions avoid these is
resolved as it stands by all three, and no other table is.
-/

namespace TabnasExpr

universe u

variable {υ τ : Type u}

/-! ## What an operator is to carry -/

/-- The fields of a resolved operator its definition decides. -/
structure Named (υ : Type u) where
  name : String
  left : ℤ
  right : ℤ
  terms : ℕ
  use : Option υ
  preval : Preval
  deriving DecidableEq

/-- These fields of an operator. -/
def Resolved.named (op : Resolved υ) : Named υ :=
  ⟨op.name, op.left, op.right, op.terms, op.use, op.preval⟩

/-- The preval settings of a definition: active once there are any, and not required, unless they
say so. -/
def OpDef.settings (d : OpDef υ) : Preval :=
  match d.preval with
  | none => noPreval
  | some (.shorthand active) => ⟨active, false, none⟩
  | some (.settings active required allow) => ⟨active.getD true, required.getD false, allow⟩

/-- The name of the operator of a kind. -/
def resolvedName (k : Kind) (name : String) : String :=
  if k = .parenOp then name ++ "-paren" else kindName k name

/-- What the operator of a kind is to carry of its definition. -/
def OpDef.carried (k : Kind) (name : String) (d : OpDef υ) : Named υ where
  name := resolvedName k name
  left := bindingPower d.left minSafeInteger
  right := bindingPower d.right maxSafeInteger
  terms := k.terms
  use := d.use
  preval := if k = .parenOp then d.settings else noPreval

/-- What all ports resolve as it stands: a definition of one kind, with no custom data, a ternary
that is not named as one yet and whose texts are no list of strings, and a paren with no power, no list
of values and no `preval` of `false`. -/
def Portable (name : String) (d : OpDef υ) : Prop :=
  ∀ k ∈ d.kinds, d.kinds = [k] ∧ d.use = none ∧
    (k = .ternaryOp → endsWith name "-ternary" = false ∧ d.src.isStrings = false) ∧
    (k = .parenOp → bindingPower d.left minSafeInteger = minSafeInteger ∧
      bindingPower d.right maxSafeInteger = maxSafeInteger ∧
      d.preval ≠ some (.shorthand false) ∧ d.settings.allow = none)

/-! ## Names end with the kind -/

theorem endsWith_iff {s t : String} : endsWith s t = true ↔ t.toList <:+ s.toList :=
  List.isSuffixOf_iff_suffix

theorem endsWith_append (s t : String) : endsWith (s ++ t) t = true := by
  rw [endsWith_iff, String.toList_append]
  exact List.suffix_append _ _

theorem endsWith_kindName (k : Kind) (name : String) :
    endsWith (kindName k name) ("-" ++ k.word) = true := by
  unfold kindName
  by_cases h : endsWith name ("-" ++ k.word) = true
  · simp [h]
  · simpa [h] using endsWith_append name ("-" ++ k.word)

theorem endsWith_resolvedName (k : Kind) (name : String) :
    endsWith (resolvedName k name) ("-" ++ k.word) = true := by
  unfold resolvedName
  split_ifs with h
  · subst h
    exact endsWith_append _ _
  · exact endsWith_kindName k name

/-- No word for a kind ends another. -/
theorem kind_eq_of_endsWith {s : String} {k k' : Kind} (h : endsWith s ("-" ++ k.word) = true)
    (h' : endsWith s ("-" ++ k'.word) = true) : k = k' := by
  rw [endsWith_iff] at h h'
  rcases List.suffix_or_suffix_of_suffix h h' with hs | hs
  all_goals
    rw [← List.isSuffixOf_iff_suffix] at hs
    revert hs
    cases k <;> cases k' <;> decide

/-! ## Definitions of a table -/

theorem mem_keys {d : OpDef υ} {k : Kind} {s : String} :
    (k, s) ∈ d.keys ↔ k ∈ d.kinds ∧ s ∈ d.sources k := by
  simp only [OpDef.keys, List.mem_flatMap, List.mem_map, Prod.mk.injEq]
  constructor
  · rintro ⟨k', hk, s', hs, rfl, rfl⟩
    exact ⟨hk, hs⟩
  · rintro ⟨hk, hs⟩
    exact ⟨k, hk, s, hs, rfl, rfl⟩

theorem OpDef.exists_source (d : OpDef υ) (k : Kind) : ∃ s, s ∈ d.sources k := by
  cases k <;> exact ⟨_, List.mem_cons_self⟩

theorem OpTable.eq_of_keys {T : OpTable υ} {e e' : String × OpDef υ} (he : e ∈ T.entries)
    (he' : e' ∈ T.entries) {q : Kind × String} (hq : q ∈ e.2.keys) (hq' : q ∈ e'.2.keys) : e = e' := by
  by_contra hne
  have hd := (List.nodup_flatMap.1 T.distinct).2
  have hs : Std.Symm (Function.onFun List.Disjoint fun e : String × OpDef υ => e.2.keys) :=
    ⟨fun _ _ h _ ha hb => h hb ha⟩
  exact hd.forall he he' hne hq hq'

theorem OpTable.nodup_sources {T : OpTable υ} {e : String × OpDef υ} (he : e ∈ T.entries) {k : Kind}
    (hk : k ∈ e.2.kinds) : (e.2.sources k).Nodup := by
  have hn := (List.nodup_flatMap.1 T.distinct).1 e he
  have := (List.nodup_flatMap.1 hn).1 k hk
  exact (List.nodup_map_iff fun _ _ h => (Prod.mk.inj h).2).1 this

theorem OpTable.nodup_kinds {T : OpTable υ} {e : String × OpDef υ} (he : e ∈ T.entries) :
    e.2.kinds.Nodup := by
  have hn := (List.nodup_flatMap.1 T.distinct).1 e he
  have hd := (List.nodup_flatMap.1 hn).2
  refine hd.imp ?_
  rintro k _ hdis rfl
  obtain ⟨s, hs⟩ := e.2.exists_source k
  exact hdis (List.mem_map_of_mem hs) (List.mem_map_of_mem hs)

/-! ## Lookups -/

namespace OpMap

variable [DecidableEq τ] {m : OpMap τ υ} {t : τ} {op : Resolved υ}

theorem mem_of_get (h : m.get t = some op) : (t, op) ∈ m := by
  obtain ⟨b, hb, rfl⟩ := Option.map_eq_some_iff.1 h
  have ht : b.1 = t := by simpa using List.find?_some hb
  have := List.mem_of_find?_eq_some hb
  rw [← ht]
  exact List.mem_reverse.1 this

theorem exists_get_of_mem (h : (t, op) ∈ m) : ∃ op', m.get t = some op' := by
  cases hg : m.get t with
  | some op' => exact ⟨op', rfl⟩
  | none =>
    rw [get, Option.map_eq_none_iff, List.find?_eq_none] at hg
    exact absurd (decide_eq_true rfl) (hg (t, op) (List.mem_reverse.2 h))

/-- An operator is found where no other is assigned to its token. -/
theorem get_of_unique (h : (t, op) ∈ m) (hu : ∀ op', (t, op') ∈ m → op' = op) : m.get t = some op := by
  obtain ⟨op', hg⟩ := exists_get_of_mem h
  rw [hg, hu op' (mem_of_get hg)]

end OpMap

section Resolution

variable {tin : String → τ} (hinj : Function.Injective tin) {T : OpTable υ} {k : Kind}
  {e : String × OpDef υ} {s : String}

/-- The assignments to a token are those for the source texts it stands for. -/
def Assigns (tin : String → τ) (T : OpTable υ) (k : Kind)
    (f : String × OpDef υ → String → Resolved υ) (m : OpMap τ υ) : Prop :=
  ∀ b, b ∈ m ↔ ∃ e ∈ T.entries, ∃ s, (k, s) ∈ e.2.keys ∧ b = (tin s, f e s)

include hinj in
theorem Assigns.get_eq [DecidableEq τ] {f : String × OpDef υ → String → Resolved υ} {m : OpMap τ υ}
    (hm : Assigns tin T k f m) (he : e ∈ T.entries) (hq : (k, s) ∈ e.2.keys) :
    m.get (tin s) = some (f e s) := by
  refine OpMap.get_of_unique ((hm _).2 ⟨e, he, s, hq, rfl⟩) fun op' h' => ?_
  obtain ⟨e', he', s', hq', hb⟩ := (hm _).1 h'
  obtain ⟨ht, rfl⟩ := Prod.mk.inj hb
  obtain rfl := hinj ht
  rw [OpTable.eq_of_keys he he' hq hq']

/-- What TypeScript assigns for a source text. -/
def Ts.assigned (k : Kind) (e : String × OpDef υ) (s : String) : Resolved υ :=
  if k = .parenOp then Ts.parenOp e.1 e.2
  else Ts.anyfixOp k e.1 e.2 s
    (if k = .ternaryOp then some (if s = e.2.src.first then 0 else 1) else none)

/-- What Rust assigns for a source text. -/
def Rust.assigned (k : Kind) (e : String × OpDef υ) (s : String) : Resolved υ :=
  if k = .parenOp then Rust.parenOp e.1 e.2
  else Rust.anyfixOp k e.1 e.2 s
    (if k = .ternaryOp then some (if s = e.2.src.first then 0 else 1) else none)

/-- The two texts of a ternary differ. -/
theorem OpTable.second_ne_first (he : e ∈ T.entries) (hk : .ternaryOp ∈ e.2.kinds) :
    e.2.src.second ≠ e.2.src.first := by
  have := OpTable.nodup_sources he hk
  simp only [OpDef.sources, List.nodup_cons, List.mem_singleton] at this
  exact fun h => this.1 h.symm

/-- A map that assigns each selected definition its operators for a kind. -/
theorem assigns_anyfix (hk : k ≠ .parenOp) (g : String × OpDef υ → String → Option ℕ → Resolved υ) :
    Assigns tin T k
      (fun e s => g e s (if k = .ternaryOp then some (if s = e.2.src.first then 0 else 1) else none))
      ((T.entries.filter fun e => k ∈ e.2.kinds).flatMap fun e =>
        if k = .ternaryOp then
          [(tin e.2.src.first, g e e.2.src.first (some 0)),
            (tin e.2.src.second, g e e.2.src.second (some 1))]
        else [(tin e.2.src.first, g e e.2.src.first none)]) := by
  intro b
  simp only [List.mem_flatMap, List.mem_filter, decide_eq_true_eq, mem_keys, and_assoc]
  refine exists_congr fun e => and_congr_right fun he => ?_
  rw [exists_and_left]
  by_cases ht : k = .ternaryOp
  · subst ht
    by_cases hk : .ternaryOp ∈ e.2.kinds
    · have hne := OpTable.second_ne_first he hk
      simp [OpDef.sources, hk, hne]
    · simp [hk]
  · have hs : e.2.sources k = [e.2.src.first] := by
      cases k <;> first | rfl | contradiction
    simp [ht, hs]

/-- A map that assigns each selected definition its paren operator. -/
theorem assigns_paren (g : String × OpDef υ → Resolved υ) :
    Assigns tin T .parenOp (fun e _ => g e)
      ((T.entries.filter fun e => .parenOp ∈ e.2.kinds).map fun e => (tin e.2.osrc, g e)) := by
  intro b
  simp only [List.mem_map, List.mem_filter, decide_eq_true_eq, mem_keys, and_assoc]
  refine exists_congr fun e => and_congr_right fun _ => ?_
  simp [OpDef.sources, eq_comm]

include hinj in
theorem resolve_typescript [DecidableEq τ] (he : e ∈ T.entries) (hq : (k, s) ∈ e.2.keys) :
    resolve tin T k s .typescript = some (Ts.assigned k e s) := by
  by_cases hk : k = .parenOp
  · subst hk
    exact (assigns_paren fun e => Ts.parenOp e.1 e.2).get_eq hinj he hq
  · simp only [resolve, Ts.assigned, if_neg hk]
    exact (assigns_anyfix hk fun e => Ts.anyfixOp k e.1 e.2).get_eq hinj he hq

include hinj in
theorem resolve_rust [DecidableEq τ] (he : e ∈ T.entries) (hq : (k, s) ∈ e.2.keys) :
    resolve tin T k s .rust = some (Rust.assigned k e s) := by
  by_cases hk : k = .parenOp
  · subst hk
    exact (assigns_paren fun e => Rust.parenOp e.1 e.2).get_eq hinj he hq
  · simp only [resolve, Rust.assigned, if_neg hk]
    exact (assigns_anyfix hk fun e => Rust.anyfixOp k e.1 e.2).get_eq hinj he hq

/-! ## The one record of Go -/

namespace Go

/-- The kind `makeAllOps` reads a definition as. -/
def readKind (d : OpDef υ) : Kind :=
  if .parenOp ∈ d.kinds then .parenOp else if .ternaryOp ∈ d.kinds then .ternaryOp else nameKind d

theorem nameKind_spec (d : OpDef υ) :
    nameKind d = .prefixOp ∨ nameKind d = .suffixOp ∨ nameKind d = .infixOp := by
  unfold nameKind
  split_ifs <;> simp

@[simp] theorem kinds_makeOp (name : String) (d : OpDef υ) : (makeOp tin name d).kinds = d.kinds := by
  unfold makeOp
  split_ifs <;> rfl

theorem endsWith_makeOp (tin : String → τ) (name : String) (d : OpDef υ) :
    endsWith (makeOp tin name d).name ("-" ++ (readKind d).word) = true := by
  unfold makeOp readKind
  split_ifs
  · exact endsWith_append _ _
  · exact endsWith_append _ _
  · exact endsWith_kindName _ _

/-- The tokens the maps of a kind go by. -/
def tokens : Kind → List (TokenOp τ υ → Option τ)
  | .parenOp => [TokenOp.otin]
  | .ternaryOp => [TokenOp.tin, TokenOp.ctin]
  | _ => [TokenOp.tin]

/-- The source texts `makeAllOps` enters a definition under, read as a kind. -/
def texts (d : OpDef υ) : Kind → List String
  | .ternaryOp => [(readPair d.src).1, (readPair d.src).2]
  | k => d.sources k

/-- Read as a kind, a definition is found by the tokens of the texts it is entered under. -/
theorem exists_token_iff (hinj : Function.Injective tin) (hr : readKind e.2 = k) :
    (∃ token ∈ tokens k, token (makeOp tin e.1 e.2) = some (tin s)) ↔ s ∈ texts e.2 k := by
  subst hr
  unfold makeOp readKind
  split_ifs with hp ht
  · simp [tokens, texts, OpDef.sources, hinj.eq_iff, eq_comm]
  · simp [tokens, texts, hinj.eq_iff, eq_comm]
  · rcases nameKind_spec e.2 with h | h | h <;>
      simp [h, tokens, texts, OpDef.sources, hinj.eq_iff, eq_comm]

/-- These are its source texts, unless they are a list of strings. -/
theorem texts_eq {d : OpDef υ} (hk : k ∈ d.kinds) (hs : k = .ternaryOp → d.src.isStrings = false) :
    texts d k = d.sources k := by
  cases k with
  | ternaryOp =>
    have hpair := d.shape.2 hk
    have hs := hs rfl
    unfold texts OpDef.sources
    cases hsrc : d.src with
    | text t => simp [hsrc] at hpair
    | pair t u => rfl
    | strings t u => simp [hsrc] at hs
  | _ => rfl

/-- Every definition of a kind is read as that kind, and its source texts are read. -/
def ReadsAll (T : OpTable υ) (k : Kind) : Prop :=
  ∀ e ∈ T.entries, k ∈ e.2.kinds → readKind e.2 = k ∧ texts e.2 k = e.2.sources k

theorem mem_byTin {token : TokenOp τ υ → Option τ} {t : τ} {op : Resolved υ} :
    (t, op) ∈ byTin k token (makeAllOps tin T.entries) ↔ ∃ e ∈ T.entries, k ∈ e.2.kinds ∧
      token (makeOp tin e.1 e.2) = some t ∧ op = (makeOp tin e.1 e.2).toResolved := by
  simp only [byTin, makeAllOps, List.mem_filterMap, List.mem_filter, List.mem_map,
    List.mem_insertionSort, decide_eq_true_eq, Option.map_eq_some_iff, Prod.mk.injEq]
  constructor
  · rintro ⟨_, ⟨⟨e, he, rfl⟩, hk⟩, t', ht, rfl, rfl⟩
    exact ⟨e, he, by simpa using hk, ht, rfl⟩
  · rintro ⟨e, he, hk, ht, rfl⟩
    exact ⟨_, ⟨⟨e, he, rfl⟩, by simpa using hk⟩, t, ht, rfl, rfl⟩

theorem resolve_eq_findSome [DecidableEq τ] :
    resolve tin T k s .go =
      (tokens k).findSome? fun token => (byTin k token (makeAllOps tin T.entries)).get (tin s) := by
  cases k
  all_goals
    simp only [resolve, tokens, List.findSome?_cons, List.findSome?_nil]
    split <;> simp_all
  -- the second map of a ternary
  split <;> simp_all

/-- What Go finds is the record of some definition of the kind. -/
theorem of_resolve [DecidableEq τ] {op : Resolved υ} (h : resolve tin T k s .go = some op) :
    ∃ e ∈ T.entries, k ∈ e.2.kinds ∧ op = (makeOp tin e.1 e.2).toResolved ∧
      ∃ token ∈ tokens k, token (makeOp tin e.1 e.2) = some (tin s) := by
  rw [resolve_eq_findSome] at h
  obtain ⟨token, htok, hget⟩ := List.exists_of_findSome?_eq_some h
  obtain ⟨e, he, hk, ht, hop⟩ := mem_byTin.1 (OpMap.mem_of_get hget)
  exact ⟨e, he, hk, hop, token, htok, ht⟩

include hinj in
/-- An operator named as one of a kind is the record of a definition that is read as that kind and
entered under the text. -/
theorem of_name [DecidableEq τ] {op : Resolved υ} (h : resolve tin T k s .go = some op)
    (hname : op.name = resolvedName k e.1) :
    ∃ e' ∈ T.entries, k ∈ e'.2.kinds ∧ readKind e'.2 = k ∧ s ∈ texts e'.2 k ∧
      op = (makeOp tin e'.1 e'.2).toResolved := by
  obtain ⟨e', he', hk', rfl, htok⟩ := of_resolve h
  have hread : readKind e'.2 = k := by
    refine kind_eq_of_endsWith (endsWith_makeOp tin e'.1 e'.2) ?_
    rw [hname]
    exact endsWith_resolvedName k e.1
  exact ⟨e', he', hk', hread, (exists_token_iff hinj hread).1 htok, rfl⟩

include hinj in
/-- An operator named as it is to be is the record of its own definition, read as its kind. -/
theorem eq_of_name [DecidableEq τ]
    (htexts : ∀ e ∈ T.entries, k ∈ e.2.kinds → texts e.2 k = e.2.sources k) (he : e ∈ T.entries)
    (hq : (k, s) ∈ e.2.keys) {op : Resolved υ} (h : resolve tin T k s .go = some op)
    (hname : op.name = resolvedName k e.1) :
    readKind e.2 = k ∧ op = (makeOp tin e.1 e.2).toResolved := by
  obtain ⟨e', he', hk', hread, hs, rfl⟩ := of_name hinj h hname
  rw [htexts e' he' hk'] at hs
  obtain rfl := OpTable.eq_of_keys he he' hq (mem_keys.2 ⟨hk', hs⟩)
  exact ⟨hread, rfl⟩

include hinj in
/-- Where every definition of a kind is read as that kind, each is found. -/
theorem resolve_eq [DecidableEq τ] (hall : ReadsAll T k) (he : e ∈ T.entries)
    (hq : (k, s) ∈ e.2.keys) :
    resolve tin T k s .go = some (makeOp tin e.1 e.2).toResolved := by
  obtain ⟨hk, hs⟩ := mem_keys.1 hq
  obtain ⟨hread, htexts⟩ := hall e he hk
  obtain ⟨token, htok, ht⟩ := (exists_token_iff hinj hread).2 (htexts ▸ hs)
  obtain ⟨op, hop⟩ : ∃ op, resolve tin T k s .go = some op := by
    obtain ⟨op, hget⟩ := OpMap.exists_get_of_mem (mem_byTin.2 ⟨e, he, hk, ht, rfl⟩)
    rw [resolve_eq_findSome, ← Option.isSome_iff_exists, List.findSome?_isSome_iff]
    exact ⟨token, htok, by rw [hget]; rfl⟩
  obtain ⟨e', he', hk', rfl, htok'⟩ := of_resolve hop
  obtain ⟨hread', htexts'⟩ := hall e' he' hk'
  have hs' : s ∈ e'.2.sources k := htexts' ▸ (exists_token_iff hinj hread').1 htok'
  rw [hop, OpTable.eq_of_keys he he' hq (mem_keys.2 ⟨hk', hs'⟩)]

theorem readKind_of_kinds {d : OpDef υ} (hk : d.kinds = [k]) : readKind d = k := by
  cases k <;> simp [readKind, nameKind, hk]

theorem readKind_of_paren {d : OpDef υ} (hk : .parenOp ∈ d.kinds) : readKind d = .parenOp := by
  simp [readKind, hk]

theorem readsAll_paren (T : OpTable υ) : ReadsAll T .parenOp := fun _ _ hk =>
  ⟨readKind_of_paren hk, rfl⟩

theorem readsAll_of_portable (h : ∀ e ∈ T.entries, Portable e.1 e.2) (k : Kind) : ReadsAll T k := by
  intro e he hk
  obtain ⟨hkinds, -, ht, -⟩ := h e he k hk
  exact ⟨readKind_of_kinds hkinds, texts_eq hk fun hk => (ht hk).2⟩

end Go

/-! ## Closing texts -/

theorem OpTable.eq_of_csrc (hc : T.closers.Nodup) {e e' : String × OpDef υ} (he : e ∈ T.entries)
    (hk : .parenOp ∈ e.2.kinds) (he' : e' ∈ T.entries) (hk' : .parenOp ∈ e'.2.kinds)
    (h : e'.2.csrc = e.2.csrc) : e' = e :=
  List.inj_on_of_nodup_map hc (List.mem_filter.2 ⟨he', by simpa using hk'⟩)
    (List.mem_filter.2 ⟨he, by simpa using hk⟩) h

include hinj in
/-- The parens of a map with all of them are found by their closing texts. -/
theorem parenClose_get [DecidableEq τ] (hc : T.closers.Nodup) (he : e ∈ T.entries)
    (hk : .parenOp ∈ e.2.kinds) {g : String × OpDef υ → Resolved υ}
    (hg : ∀ e ∈ T.entries, (g e).csrc = e.2.csrc) {m : OpMap τ υ}
    (hm : Assigns tin T .parenOp (fun e _ => g e) m) :
    (parenClose tin m).get (tin e.2.csrc) = some (g e) := by
  have hq : (.parenOp, e.2.osrc) ∈ e.2.keys := mem_keys.2 ⟨hk, by simp [OpDef.sources]⟩
  have hlast : Assoc.last m (tin e.2.osrc) = some (g e) := hm.get_eq hinj he hq
  refine OpMap.get_of_unique ?_ fun op' h' => ?_
  · refine List.mem_map.2 ⟨_, Assoc.mem_setAll_nil.2 hlast, ?_⟩
    rw [hg e he]
  · obtain ⟨b, hb, heq⟩ := List.mem_map.1 h'
    obtain ⟨ht, rfl⟩ := Prod.mk.inj heq
    obtain ⟨e', he', s, hq', rfl⟩ := (hm b).1 (Assoc.mem_of_last (Assoc.mem_setAll_nil.1 hb))
    have hcs := hinj ht
    rw [hg e' he'] at hcs
    rw [OpTable.eq_of_csrc hc he hk he' (mem_keys.1 hq').1 hcs]

include hinj in
/-- In every port the closing text of a paren stands for the operator its opening text stands for. -/
theorem resolveClose_eq [DecidableEq τ] (hc : T.closers.Nodup) (he : e ∈ T.entries)
    (hk : .parenOp ∈ e.2.kinds) (L : Language) :
    resolveClose tin T e.2.csrc L = resolve tin T .parenOp e.2.osrc L := by
  have hq : (.parenOp, e.2.osrc) ∈ e.2.keys := mem_keys.2 ⟨hk, by simp [OpDef.sources]⟩
  cases L with
  | typescript =>
    rw [resolve_typescript hinj he hq]
    exact parenClose_get hinj hc he hk (fun _ _ => rfl) (assigns_paren fun e => Ts.parenOp e.1 e.2)
  | rust =>
    rw [resolve_rust hinj he hq]
    exact parenClose_get hinj hc he hk (fun _ _ => rfl) (assigns_paren fun e => Rust.parenOp e.1 e.2)
  | go =>
    rw [Go.resolve_eq hinj (Go.readsAll_paren T) he hq]
    have hct : ∀ e : String × OpDef υ, .parenOp ∈ e.2.kinds →
        (Go.makeOp tin e.1 e.2).ctin = some (tin e.2.csrc) := fun e hk => by simp [Go.makeOp, hk]
    refine OpMap.get_of_unique (Go.mem_byTin.2 ⟨e, he, hk, hct e hk, rfl⟩) fun op' h' => ?_
    obtain ⟨e', he', hk', ht, rfl⟩ := Go.mem_byTin.1 h'
    rw [hct e' hk'] at ht
    rw [OpTable.eq_of_csrc hc he hk he' hk' (hinj (Option.some.inj ht))]

/-! ## Which definitions are carried -/

theorem Ts.parenPreval_iff (d : OpDef υ) : Ts.parenPreval d.preval = d.settings ↔
    d.preval ≠ some (.shorthand false) ∧ d.settings.allow = none := by
  unfold OpDef.settings
  rcases d.preval with _ | b | ⟨active, required, allow⟩
  · simp [Ts.parenPreval, noPreval]
  · cases b <;> simp [Ts.parenPreval]
  · simp [Ts.parenPreval, eq_comm]

/-- TypeScript carries what a definition says when it says no more than TypeScript reads. -/
theorem Ts.named_assigned_iff :
    (Ts.assigned k e s).named = e.2.carried k e.1 ↔ e.2.use = none ∧
      (k = .parenOp → bindingPower e.2.left minSafeInteger = minSafeInteger ∧
        bindingPower e.2.right maxSafeInteger = maxSafeInteger ∧
        e.2.preval ≠ some (.shorthand false) ∧ e.2.settings.allow = none) := by
  by_cases hk : k = .parenOp
  · subst hk
    have := Ts.parenPreval_iff e.2
    simp only [Ts.assigned, if_true, Resolved.named, OpDef.carried, Ts.parenOp, resolvedName,
      Kind.terms, Named.mk.injEq, true_and, forall_const, eq_comm]
    tauto
  · simp [Ts.assigned, hk, Resolved.named, OpDef.carried, Ts.anyfixOp, resolvedName, eq_comm]

theorem Rust.preval_eq (d : OpDef υ) :
    (Rust.prevalFromValue d.preval).getD noPreval = d.settings := by
  unfold OpDef.settings
  rcases d.preval with _ | b | ⟨active, required, allow⟩ <;> rfl

theorem Go.preval_eq {d : OpDef υ} (h : d.settings.allow = none) :
    Go.parenPreval d.preval = d.settings := by
  revert h
  unfold OpDef.settings
  rcases d.preval with _ | b | ⟨active, required, allow⟩
  · simp [Go.parenPreval]
  · simp [Go.parenPreval]
  · rintro rfl
    rfl

theorem Rust.named_assigned (hp : k = .parenOp → bindingPower e.2.left minSafeInteger = minSafeInteger ∧
    bindingPower e.2.right maxSafeInteger = maxSafeInteger) :
    (Rust.assigned k e s).named = e.2.carried k e.1 := by
  by_cases hk : k = .parenOp
  · obtain ⟨hl, hr⟩ := hp hk
    subst hk
    simp [Rust.assigned, Resolved.named, OpDef.carried, Rust.parenOp, resolvedName, Kind.terms, hl, hr,
      Rust.preval_eq]
  · simp [Rust.assigned, hk, Resolved.named, OpDef.carried, Rust.anyfixOp, resolvedName]

/-- Go always puts its kind behind the name of a ternary. -/
theorem append_ternary_eq_iff (name : String) :
    name ++ "-ternary" = kindName .ternaryOp name ↔ endsWith name "-ternary" = false := by
  have hw : "-" ++ Kind.ternaryOp.word = "-ternary" := by decide
  simp only [kindName, hw]
  cases h : endsWith name "-ternary" with
  | false => simp
  | true =>
    have hne : name ++ "-ternary" ≠ name := by
      intro hn
      have := congrArg String.length hn
      simp at this
    simp [hne]

/-- Go carries what a definition of one kind says. -/
theorem Go.named_makeOp (hk : e.2.kinds = [k])
    (ht : k = .ternaryOp → endsWith e.1 "-ternary" = false)
    (hp : k = .parenOp → e.2.settings.allow = none) :
    (Go.makeOp tin e.1 e.2).named = e.2.carried k e.1 := by
  unfold Go.makeOp
  cases k with
  | ternaryOp =>
    have hname := (append_ternary_eq_iff e.1).2 (ht rfl)
    simp [hk, Resolved.named, OpDef.carried, Go.baseOp, resolvedName, Kind.terms, hname]
  | parenOp =>
    simp [hk, Resolved.named, OpDef.carried, Go.baseOp, resolvedName, Kind.terms,
      Go.preval_eq (hp rfl)]
  | _ => simp [hk, Resolved.named, OpDef.carried, Go.baseOp, Go.nameKind, resolvedName, Kind.terms]

theorem OpTable.kinds_eq (he : e ∈ T.entries) (hk : k ∈ e.2.kinds) (hall : ∀ k' ∈ e.2.kinds, k' = k) :
    e.2.kinds = [k] := by
  have hn := OpTable.nodup_kinds he
  rcases hl : e.2.kinds with _ | ⟨a, _ | ⟨b, l⟩⟩
  · simp [hl] at hk
  · rw [hall a (by simp [hl])]
  · have ha := hall a (by simp [hl])
    have hb := hall b (by simp [hl])
    simp [hl, ha, hb] at hn

/-! ## The resolution of a whole table -/

variable [DecidableEq τ]

/-- Every port finds, for every kind and source text of every definition, and for the closing text of
every paren, an operator that carries what the definition says. -/
def Faithful (tin : String → τ) (T : OpTable υ) : Prop :=
  ∀ e ∈ T.entries, ∀ L,
    (∀ q ∈ e.2.keys, (resolve tin T q.1 q.2 L).map Resolved.named = some (e.2.carried q.1 e.1)) ∧
    (.parenOp ∈ e.2.kinds →
      (resolveClose tin T e.2.csrc L).map Resolved.named = some (e.2.carried .parenOp e.1))

/-- The ports find the same operators, in every field. -/
def Same (tin : String → τ) (T : OpTable υ) : Prop :=
  ∀ e ∈ T.entries, ∀ L L',
    (∀ q ∈ e.2.keys, resolve tin T q.1 q.2 L = resolve tin T q.1 q.2 L') ∧
    (.parenOp ∈ e.2.kinds → resolveClose tin T e.2.csrc L = resolveClose tin T e.2.csrc L')

/-- A definition whose operator has the same fields in all ports: no ternary, whose two texts Go
does not tell apart, and no paren, whose `src` Go leaves empty. -/
def Uniform (d : OpDef υ) : Prop :=
  .ternaryOp ∉ d.kinds ∧ (.parenOp ∈ d.kinds → d.osrc = "")

include hinj in
/-- No port misses the two texts of a ternary: one of them is not empty, and no definition Go reads as a
list of strings is entered under it. -/
theorem isStrings_of_faithful (h : Faithful tin T) (he : e ∈ T.entries) (hk : .ternaryOp ∈ e.2.kinds) :
    e.2.src.isStrings = false := by
  by_contra hs
  obtain ⟨s, hmem, hne⟩ : ∃ s ∈ e.2.sources .ternaryOp, s ≠ "" := by
    by_contra hall
    push Not at hall
    refine OpTable.second_ne_first he hk ?_
    rw [hall e.2.src.second (by simp [OpDef.sources]), hall e.2.src.first (by simp [OpDef.sources])]
  have hq : (.ternaryOp, s) ∈ e.2.keys := mem_keys.2 ⟨hk, hmem⟩
  obtain ⟨op, hop, hnamed⟩ := Option.map_eq_some_iff.1 ((h e he .go).1 _ hq)
  obtain ⟨e', he', hk', -, hs', -⟩ := Go.of_name hinj hop (congrArg Named.name hnamed)
  cases hsrc : e'.2.src.isStrings with
  | true =>
    cases hsrc' : e'.2.src with
    | strings t u => simp [Go.texts, Go.readPair, hsrc', hne] at hs'
    | text t | pair t u => simp [hsrc'] at hsrc
  | false =>
    rw [Go.texts_eq hk' fun _ => hsrc] at hs'
    obtain rfl := OpTable.eq_of_keys he he' hq (mem_keys.2 ⟨hk', hs'⟩)
    exact hs hsrc

include hinj in
theorem portable_of_faithful (h : Faithful tin T) (he : e ∈ T.entries) : Portable e.1 e.2 := by
  have hread : ∀ k ∈ e.2.kinds, Go.readKind e.2 = k ∧
      (Go.makeOp tin e.1 e.2).named = e.2.carried k e.1 := by
    intro k hk
    obtain ⟨s, hs⟩ := e.2.exists_source k
    have hq : (k, s) ∈ e.2.keys := mem_keys.2 ⟨hk, hs⟩
    have htexts : ∀ e ∈ T.entries, k ∈ e.2.kinds → Go.texts e.2 k = e.2.sources k :=
      fun e he hk => Go.texts_eq hk fun ht => isStrings_of_faithful hinj h he (ht ▸ hk)
    obtain ⟨op, hop, hnamed⟩ := Option.map_eq_some_iff.1 ((h e he .go).1 _ hq)
    obtain ⟨hr, rfl⟩ := Go.eq_of_name hinj htexts he hq hop (congrArg Named.name hnamed)
    exact ⟨hr, hnamed⟩
  intro k hk
  obtain ⟨s, hs⟩ := e.2.exists_source k
  have hq : (k, s) ∈ e.2.keys := mem_keys.2 ⟨hk, hs⟩
  have hkinds := OpTable.kinds_eq he hk fun k' hk' => by rw [← (hread k' hk').1, (hread k hk).1]
  have hts := (h e he .typescript).1 _ hq
  rw [resolve_typescript hinj he hq] at hts
  obtain ⟨huse, hparen⟩ := Ts.named_assigned_iff.1 (Option.some.inj hts)
  refine ⟨hkinds, huse, ?_, hparen⟩
  rintro rfl
  have hname := congrArg Named.name (hread _ hk).2
  refine ⟨(append_ternary_eq_iff e.1).1 ?_, isStrings_of_faithful hinj h he hk⟩
  simpa [Go.makeOp, hkinds, Resolved.named, OpDef.carried, resolvedName] using hname

include hinj in
/-- What is found for a kind and a source text carries what the definition says. -/
theorem named_of_portable (h : ∀ e ∈ T.entries, Portable e.1 e.2) (he : e ∈ T.entries)
    (hq : (k, s) ∈ e.2.keys) (L : Language) :
    (resolve tin T k s L).map Resolved.named = some (e.2.carried k e.1) := by
  obtain ⟨hk, hs⟩ := mem_keys.1 hq
  obtain ⟨hkinds, huse, ht, hp⟩ := h e he k hk
  cases L with
  | typescript =>
    rw [resolve_typescript hinj he hq]
    exact congrArg some (Ts.named_assigned_iff.2 ⟨huse, hp⟩)
  | rust =>
    rw [resolve_rust hinj he hq]
    exact congrArg some (Rust.named_assigned fun hk => ⟨(hp hk).1, (hp hk).2.1⟩)
  | go =>
    rw [Go.resolve_eq hinj (Go.readsAll_of_portable h k) he hq]
    exact congrArg some (Go.named_makeOp hkinds (fun hk => (ht hk).1) fun hk => (hp hk).2.2.2)

include hinj in
theorem faithful_of_portable (hc : T.closers.Nodup) (h : ∀ e ∈ T.entries, Portable e.1 e.2) :
    Faithful tin T := by
  intro e he L
  refine ⟨fun q hq => named_of_portable hinj h he hq L, fun hk => ?_⟩
  rw [resolveClose_eq hinj hc he hk]
  exact named_of_portable hinj h he (mem_keys.2 ⟨hk, by simp [OpDef.sources]⟩) L

/-- Rust and TypeScript assign the same where a definition is carried. -/
theorem Rust.assigned_eq (hk : k ∈ e.2.kinds) (h : Portable e.1 e.2) :
    Rust.assigned k e s = Ts.assigned k e s := by
  obtain ⟨-, huse, -, hp⟩ := h k hk
  unfold Rust.assigned Ts.assigned
  by_cases hpar : k = .parenOp
  · obtain ⟨-, -, hpre⟩ := hp hpar
    have hts := (Ts.parenPreval_iff e.2).2 hpre
    simp [hpar, Rust.parenOp, Ts.parenOp, huse, hts, Rust.preval_eq]
  · simp [hpar, Rust.anyfixOp, Ts.anyfixOp, huse]

omit [DecidableEq τ] in
/-- The record of Go is the operator TypeScript assigns where a definition is carried and uniform. -/
theorem Go.toResolved_makeOp (hq : (k, s) ∈ e.2.keys) (h : Portable e.1 e.2) (ha : Uniform e.2) :
    (Go.makeOp tin e.1 e.2).toResolved = Ts.assigned k e s := by
  obtain ⟨hk, hs⟩ := mem_keys.1 hq
  obtain ⟨hkinds, huse, -, hp⟩ := h k hk
  unfold Go.makeOp Ts.assigned
  cases k with
  | ternaryOp => exact absurd hk ha.1
  | parenOp =>
    obtain ⟨hl, hr, hpre⟩ := hp rfl
    have hts := (Ts.parenPreval_iff e.2).2 hpre
    simp [hkinds, Go.baseOp, Ts.parenOp, huse, hts, hl, hr, ha.2 hk, Go.preval_eq hpre.2]
  | _ =>
    have hs' : s = e.2.src.first := by simpa [OpDef.sources] using hs
    simp [hkinds, Go.baseOp, Go.nameKind, Ts.anyfixOp, huse, hs', Kind.terms]

include hinj in
theorem same_iff_uniform (hc : T.closers.Nodup) (h : ∀ e ∈ T.entries, Portable e.1 e.2) :
    Same tin T ↔ ∀ e ∈ T.entries, Uniform e.2 := by
  have hall : ∀ k, Go.ReadsAll T k := Go.readsAll_of_portable h
  constructor
  · intro hsame e he
    have hgo : ∀ k s, (k, s) ∈ e.2.keys →
        Ts.assigned k e s = (Go.makeOp tin e.1 e.2).toResolved := by
      intro k s hq
      have := (hsame e he .typescript .go).1 (k, s) hq
      rw [resolve_typescript hinj he hq, Go.resolve_eq hinj (hall k) he hq] at this
      exact Option.some.inj this
    constructor
    · intro hk
      have hq : (.ternaryOp, e.2.src.first) ∈ e.2.keys :=
        mem_keys.2 ⟨hk, by simp [OpDef.sources]⟩
      have := congrArg Resolved.index (hgo _ _ hq)
      simp [Ts.assigned, Ts.anyfixOp, Go.makeOp, (h e he _ hk).1, Go.baseOp] at this
    · intro hk
      have hq : (.parenOp, e.2.osrc) ∈ e.2.keys := mem_keys.2 ⟨hk, by simp [OpDef.sources]⟩
      have := congrArg Resolved.src (hgo _ _ hq)
      simpa [Ts.assigned, Ts.parenOp, Go.makeOp, (h e he _ hk).1, Go.baseOp] using this
  · intro ha e he L L'
    have hts : ∀ q ∈ e.2.keys, ∀ L, resolve tin T q.1 q.2 L = some (Ts.assigned q.1 e q.2) := by
      intro q hq L
      cases L with
      | typescript => exact resolve_typescript hinj he hq
      | rust => rw [resolve_rust hinj he hq, Rust.assigned_eq (mem_keys.1 hq).1 (h e he)]
      | go =>
        rw [Go.resolve_eq hinj (hall q.1) he hq, Go.toResolved_makeOp hq (h e he) (ha e he)]
    refine ⟨fun q hq => by rw [hts q hq L, hts q hq L'], fun hk => ?_⟩
    have hq : (.parenOp, e.2.osrc) ∈ e.2.keys := mem_keys.2 ⟨hk, by simp [OpDef.sources]⟩
    rw [resolveClose_eq hinj hc he hk, resolveClose_eq hinj hc he hk, hts _ hq L, hts _ hq L']

/-! ## The preval alternates -/

/-- A preval is active, and there is no list of values, or the value before the paren is in it. -/
def PrevalApplies (p : Preval) (v : Preceding) : Prop :=
  p.active = true ∧ ∀ l, p.allow = some l → ∃ s ∈ l, v = .text s

/-- In every port the alternates for a value before a paren apply when the definition says so, and never
to a paren with no value before it. -/
def PrevalExact (tin : String → τ) (T : OpTable υ) (d : OpDef υ) (v : Preceding) : Prop :=
  ∀ L, ∃ op, resolve tin T .parenOp d.osrc L = some op ∧
    (prevalOpens op.preval v L = true ↔ PrevalApplies d.settings v) ∧
    (prevalChains op.preval (some v) L = true ↔ PrevalApplies d.settings v) ∧
    prevalChains op.preval none L = false

/-- A definition and a value the alternates of all ports are right about: the `preval` is not
`false`, and where it is active the value is in the list there is, or is not null where there is
none. -/
def PrevalPortable (d : OpDef υ) (v : Preceding) : Prop :=
  d.preval ≠ some (.shorthand false) ∧ (d.settings.active = true →
    (d.settings.allow = none → v ≠ .null) ∧ ∀ l, d.settings.allow = some l → ∃ s ∈ l, v = .text s)

/-- The preval settings a port resolves. -/
def portPreval (d : OpDef υ) : Language → Preval
  | .typescript => Ts.parenPreval d.preval
  | .rust => (Rust.prevalFromValue d.preval).getD noPreval
  | .go => Go.parenPreval d.preval

include hinj in
theorem resolve_paren (he : e ∈ T.entries) (hk : .parenOp ∈ e.2.kinds) (L : Language) :
    ∃ op, resolve tin T .parenOp e.2.osrc L = some op ∧ op.preval = portPreval e.2 L := by
  have hq : (.parenOp, e.2.osrc) ∈ e.2.keys := mem_keys.2 ⟨hk, by simp [OpDef.sources]⟩
  cases L with
  | typescript => exact ⟨_, resolve_typescript hinj he hq, rfl⟩
  | rust => exact ⟨_, resolve_rust hinj he hq, rfl⟩
  | go =>
    refine ⟨_, Go.resolve_eq hinj (Go.readsAll_paren T) he hq, ?_⟩
    simp [Go.makeOp, hk, portPreval]

/-- The two alternates of a port are right about a value before a paren. -/
def PrevalRight (d : OpDef υ) (v : Preceding) (L : Language) : Prop :=
  (prevalOpens (portPreval d L) v L = true ↔ PrevalApplies d.settings v) ∧
    (prevalChains (portPreval d L) (some v) L = true ↔ PrevalApplies d.settings v)

/-- What the ports make of a `preval` that is not `false`. -/
theorem portPreval_eq {d : OpDef υ} (h : d.preval ≠ some (.shorthand false)) :
    portPreval d .typescript = { d.settings with allow := none } ∧ portPreval d .rust = d.settings ∧
      portPreval d .go = { d.settings with allow := Go.allowed d.settings.allow } := by
  unfold portPreval OpDef.settings
  rcases hp : d.preval with _ | b | ⟨active, required, allow⟩
  · exact ⟨rfl, rfl, rfl⟩
  · cases b with
    | false => exact absurd hp h
    | true => exact ⟨rfl, rfl, rfl⟩
  · exact ⟨rfl, rfl, rfl⟩

theorem prevalRight_iff (d : OpDef υ) (v : Preceding) :
    (∀ L, PrevalRight d v L) ↔ PrevalPortable d v := by
  by_cases hoff : d.preval = some (.shorthand false)
  · have hts : ¬ PrevalRight d v .typescript := by
      simp [PrevalRight, prevalOpens, portPreval, Ts.parenPreval, PrevalApplies, OpDef.settings, hoff]
    simp only [PrevalPortable, hoff, ne_eq, not_true_eq_false, false_and, iff_false]
    exact fun h => hts (h .typescript)
  · obtain ⟨hts, hrust, hgo⟩ := portPreval_eq hoff
    simp only [PrevalPortable, ne_eq, hoff, not_false_eq_true, true_and]
    rcases hs : d.settings with ⟨active, required, allow⟩
    rw [hs] at hts hrust hgo
    constructor
    · rintro h rfl
      constructor
      · rintro rfl rfl
        have := (h .go).2
        simp [prevalChains, hs, PrevalApplies] at this
      · rintro l rfl
        have := (h .typescript).1
        simpa [prevalOpens, hts, hs, PrevalApplies] using this
    · intro h L
      cases active with
      | false => cases L <;> cases v <;>
          simp [PrevalRight, PrevalApplies, prevalOpens, prevalChains, hs, hts, hrust, hgo]
      | true =>
        obtain ⟨hnull, hlist⟩ := h rfl
        cases allow with
        | none =>
          have hv := hnull rfl
          cases L <;> cases v <;>
            simp_all [PrevalRight, PrevalApplies, prevalOpens, prevalChains, Go.allowed]
        | some l =>
          obtain ⟨s, hs', rfl⟩ := hlist l rfl
          cases l with
          | nil => cases hs'
          | cons a l =>
            cases L <;> simp_all [PrevalRight, PrevalApplies, prevalOpens, prevalChains, Go.allowed,
              Preceding.asText]

include hinj in
/-- What the definitions of a table say decides whether the ports resolve it as it stands, whether they
resolve it to the same operators, and which values each paren follows. -/
theorem resolution_iff (hc : T.closers.Nodup) : (Faithful tin T ↔ ∀ e ∈ T.entries, Portable e.1 e.2) ∧
    (Faithful tin T ∧ Same tin T ↔ ∀ e ∈ T.entries, Portable e.1 e.2 ∧ Uniform e.2) ∧
    ∀ e ∈ T.entries, .parenOp ∈ e.2.kinds → ∀ v, PrevalExact tin T e.2 v ↔ PrevalPortable e.2 v := by
  have hfaithful : Faithful tin T ↔ ∀ e ∈ T.entries, Portable e.1 e.2 :=
    ⟨fun h e he => portable_of_faithful hinj h he, faithful_of_portable hinj hc⟩
  refine ⟨hfaithful, ?_, ?_⟩
  · rw [hfaithful]
    constructor
    · rintro ⟨h, hsame⟩ e he
      exact ⟨h e he, (same_iff_uniform hinj hc h).1 hsame e he⟩
    · intro h
      have hp : ∀ e ∈ T.entries, Portable e.1 e.2 := fun e he => (h e he).1
      exact ⟨hp, (same_iff_uniform hinj hc hp).2 fun e he => (h e he).2⟩
  · intro e he hk v
    rw [← prevalRight_iff]
    refine forall_congr' fun L => ?_
    obtain ⟨op, hop, hpre⟩ := resolve_paren hinj he hk L
    constructor
    · rintro ⟨op', hop', hopens, hchains, -⟩
      obtain rfl := Option.some.inj (hop.symm.trans hop')
      rw [hpre] at hopens hchains
      exact ⟨hopens, hchains⟩
    · rintro ⟨hopens, hchains⟩
      rw [← hpre] at hopens hchains
      exact ⟨op, hop, hopens, hchains, rfl⟩

end Resolution

/-- `^`, with custom data. -/
def powerDef : OpDef ℕ where
  src := .text "^"
  osrc := ""
  csrc := ""
  left := some 5
  right := some 4
  kinds := [.infixOp]
  preval := none
  use := some 7
  shape := by simp

/-- `-`, before one operand and between two. -/
def minusDef : OpDef ℕ where
  src := .text "-"
  osrc := ""
  csrc := ""
  left := some 2
  right := some 3
  kinds := [.prefixOp, .infixOp]
  preval := none
  use := none
  shape := by simp

/-- A call of the one function `f`. -/
def callDef : OpDef ℕ where
  src := .text ""
  osrc := "("
  csrc := ")"
  left := none
  right := none
  kinds := [.parenOp]
  preval := some (.settings none none (some ["f"]))
  use := none
  shape := by simp

/-- The table of these definitions. -/
def powerMinusCall : OpTable ℕ where
  entries := [("power", powerDef), ("minus", minusDef), ("call", callDef)]
  distinct := by decide

theorem resolution_powerMinusCall :
    (Faithful (id : String → String) powerMinusCall ↔
      ∀ e ∈ powerMinusCall.entries, Portable e.1 e.2) ∧
    (Faithful (id : String → String) powerMinusCall ∧ Same (id : String → String) powerMinusCall ↔
      ∀ e ∈ powerMinusCall.entries, Portable e.1 e.2 ∧ Uniform e.2) ∧
    ∀ e ∈ powerMinusCall.entries, .parenOp ∈ e.2.kinds → ∀ v,
      PrevalExact (id : String → String) powerMinusCall e.2 v ↔ PrevalPortable e.2 v :=
  resolution_iff Function.injective_id (by decide)

/-- TypeScript resolves `^` without its data, Go resolves `-` between two operands under the name of the
prefix operator, and in TypeScript the paren follows `g` as well as `f`. -/
theorem powerMinusCall_differs :
    (resolve (id : String → String) powerMinusCall .infixOp "^" .typescript).map Resolved.use =
        some none ∧
      (resolve (id : String → String) powerMinusCall .infixOp "-" .go).map Resolved.name =
        some "minus-prefix" ∧
      ¬ Faithful (id : String → String) powerMinusCall ∧
      ¬ PrevalExact (id : String → String) powerMinusCall callDef (.text "g") := by
  have huse : (resolve (id : String → String) powerMinusCall .infixOp "^" .typescript).map
      Resolved.use = some none := by
    decide +kernel
  refine ⟨huse, by decide +kernel, ?_, ?_⟩
  · intro h
    have hq : (Kind.infixOp, "^") ∈ powerDef.keys := by decide
    have := congrArg (Option.map Named.use) ((h _ List.mem_cons_self .typescript).1 _ hq)
    rw [Option.map_map] at this
    exact absurd (huse.symm.trans this) (by decide)
  · intro h
    obtain ⟨op, hop, hopens, -, -⟩ := h .typescript
    have hpre : (resolve (id : String → String) powerMinusCall .parenOp callDef.osrc .typescript).map
        (fun op => prevalOpens op.preval (.text "g") .typescript) = some true := by
      decide +kernel
    rw [hop] at hpre
    obtain ⟨-, hl⟩ := hopens.1 (Option.some.inj hpre)
    obtain ⟨s, hs, hg⟩ := hl ["f"] rfl
    obtain rfl := List.mem_singleton.1 hs
    exact absurd hg (by decide)

end TabnasExpr
