import TabnasExpr.Defaults
import TabnasExpr.Go.Ordered

/-!
# Where `Simplify` and `SimplifyOrdered` agree

`Simplify` gives a map no order, leaves a term out that comes to nothing, and reads no operator off an
object; `SimplifyOrdered` keeps a term that comes to nothing, reads the `src` of an object, leaves every
slot out that is not filled, and goes on past a container that holds itself.  These are all the
differences: on the values without any of them, and on no others, the two make the same of a value but for
the order (`agree_iff`).
-/

namespace TabnasExpr.Go

open Walk Relation

universe u

variable {α : Type u}

/-- Both simplifiers make nothing of a value. -/
def Any.isNothing : Any α → Bool
  | .nil | .listRef none | .orderedMap none => true
  | _ => false

namespace Graph

/-! ## A result without its order -/

mutual

/-- What is left of a result of `SimplifyOrdered` without the order of its maps. -/
def Ordered.forget (mark : α) : Ordered α → Simplified α
  | .nil => .nil
  | .scalar v => .scalar v
  | .op o => .op o
  | .unfilled => .unfilled
  | .circle => .scalar mark
  | .list xs => .list (forgetAll mark xs)
  | .orderedMap ms => .map (forgetMembers mark ms)
  | .map ms => .map (forgetMembers mark ms)

def Ordered.forgetAll (mark : α) : List (Ordered α) → List (Simplified α)
  | [] => []
  | x :: xs => x.forget mark :: forgetAll mark xs

def Ordered.forgetMembers (mark : α) : List (String × Ordered α) → List (String × Simplified α)
  | [] => []
  | (k, x) :: ms => (k, x.forget mark) :: forgetMembers mark ms

end

theorem Ordered.forgetAll_eq (mark : α) (xs : List (Ordered α)) :
    forgetAll mark xs = xs.map (forget mark) := by
  induction xs with
  | nil => rfl
  | cons x xs ih => rw [forgetAll, ih, List.map_cons]

theorem Ordered.forgetMembers_eq (mark : α) (ms : List (String × Ordered α)) :
    forgetMembers mark ms = ms.map fun m => (m.1, m.2.forget mark) := by
  induction ms with
  | nil => rfl
  | cons m ms ih => rw [forgetMembers, ih, List.map_cons]

/-! ## Where the two agree -/

variable (g : Graph α) (src : Op → α) (isText : α → Bool)

/-- The two read a container alike: no term of an operation comes to nothing, and a list that is none is
not led by an object with a source text and has no slot that is to be filled. -/
def Plain : Container → Prop
  | .list s =>
    match g.elements s with
    | [] => True
    | .op _ :: els => ∀ el ∈ els, el.isNothing = false
    | head :: els => g.operatorSource src isText head = none ∧ ∀ el ∈ head :: els, el.isUnfilled = false
  | _ => True

/-- The two read every container alike that the walk of a value comes to. -/
def AllPlain (v : Any α) : Prop :=
  ∀ c, g.opens v = some c → ∀ c', Reaches (g.next src isText) c c' → g.Plain src isText c'

/-- `Simplify` ends on a value, with the result of `SimplifyOrdered` but for the order. -/
def Agree (mark : α) (v : Any α) : Prop :=
  ∃ r fuel, g.simplifyOrdered src isText fuel v = some r ∧
    ∃ fuel, simplify g src fuel v = some (r.forget mark)

/-! ## One container -/

section Loops

variable {β γ δ : Type*} {f : β → Option γ} {f' : β → Option δ} {forget : δ → γ} {xs : List β}
  {ys : List γ}

/-- Two functions on the members of a list agree exactly when they agree on each. -/
theorem mapM_alike (f' : β → Option δ) (forget : δ → γ) (good : β → Prop)
    (h : ∀ x ∈ xs, ∀ y, f x = some y → ∃ z, f' x = some z ∧ (forget z = y → good x))
    (hys : xs.mapM f = some ys) :
    ∃ zs, xs.mapM f' = some zs ∧ (zs.map forget = ys → ∀ x ∈ xs, good x) := by
  induction xs generalizing ys with
  | nil => exact ⟨[], rfl, by simp⟩
  | cons x xs ih =>
    rw [List.forall_mem_cons] at h
    simp only [List.mapM_cons, Option.bind_eq_bind, Option.bind_eq_some_iff, Option.pure_def,
      Option.some.injEq] at hys
    obtain ⟨y, hy, ys, hys, rfl⟩ := hys
    obtain ⟨z, hz, hgood⟩ := h.1 y hy
    obtain ⟨zs, hzs, hall⟩ := ih h.2 hys
    refine ⟨z :: zs, by simp [hz, hzs], fun heq => List.forall_mem_cons.2 ?_⟩
    obtain ⟨hhead, htail⟩ := List.cons.inj heq
    exact ⟨hgood hhead, hall htail⟩

theorem mapM_forget {zs : List δ} (h : ∀ x ∈ xs, ∀ z, f' x = some z → f x = some (forget z))
    (hzs : xs.mapM f' = some zs) : xs.mapM f = some (zs.map forget) := by
  induction xs generalizing zs with
  | nil =>
    cases hzs
    rfl
  | cons x xs ih =>
    rw [List.forall_mem_cons] at h
    simp only [List.mapM_cons, Option.bind_eq_bind, Option.bind_eq_some_iff, Option.pure_def,
      Option.some.injEq] at hzs
    obtain ⟨z, hz, zs, hzs, rfl⟩ := hzs
    simp [h.1 z hz, ih h.2 hzs]

end Loops

section Lists

variable {f : Any α → Option (Simplified α)} {f' : Any α → Option (Ordered α)} {good : Any α → Prop}
  {mark : α} {els : List (Any α)} {ss : List (Simplified α)}

theorem keep_of_ne {s : Simplified α} (h : s ≠ .nil) : s.keep = [s] := by
  cases s <;> first | rfl | exact absurd rfl h

/-- A term that comes to nothing is left out by one of the loops only. -/
theorem terms_alike (h : ∀ el ∈ els, ∀ s, f el = some s → (el.isNothing = true → s = .nil) ∧
      ∃ r, f' el = some r ∧ (r.forget mark = s → good el))
    (hss : simplifyTerms f els = some ss) :
    ∃ rs, orderedTerms f' els = some rs ∧ ss.length ≤ rs.length ∧
      (rs.map (Ordered.forget mark) = ss →
        ∀ el ∈ els, el.isNothing = false ∧ (el.isUnfilled = false → good el)) := by
  induction els generalizing ss with
  | nil =>
    cases hss
    exact ⟨[], rfl, le_rfl, by simp⟩
  | cons el els ih =>
    rw [List.forall_mem_cons] at h
    by_cases hu : el = .unfilled
    · subst hu
      obtain ⟨rs, hrs, hle, hall⟩ := ih h.2 hss
      exact ⟨rs, hrs, hle, fun heq => List.forall_mem_cons.2 ⟨⟨rfl, nofun⟩, hall heq⟩⟩
    · have hfilled : el.isUnfilled = false := by cases el <;> simp [Any.isUnfilled] at hu ⊢
      rw [simplifyTerms] at hss
      · obtain ⟨s, hs, hss⟩ := Option.bind_eq_some_iff.1 hss
        obtain ⟨rest, hrest, hss⟩ := Option.bind_eq_some_iff.1 hss
        obtain ⟨hnil, r, hr, hgood⟩ := h.1 s hs
        obtain ⟨rs, hrs, hle, hall⟩ := ih h.2 hrest
        obtain rfl := Option.some.inj hss
        have hterms : orderedTerms f' (el :: els) = some (r :: rs) := by simp [orderedTerms, hfilled, hr, hrs]
        by_cases hs0 : s = .nil
        · subst hs0
          refine ⟨r :: rs, hterms, Nat.le_succ_of_le hle, fun heq => ?_⟩
          have hlen := congrArg List.length heq
          simp only [List.map_cons, List.length_cons, List.length_map, Simplified.keep, List.nil_append]
            at hlen
          omega
        · rw [keep_of_ne hs0]
          refine ⟨r :: rs, hterms, Nat.succ_le_succ hle, fun heq => List.forall_mem_cons.2 ?_⟩
          obtain ⟨hhead, htail⟩ := List.cons.inj heq
          refine ⟨⟨?_, fun _ => hgood hhead⟩, hall htail⟩
          exact Bool.eq_false_iff.2 fun hn => hs0 (hnil hn)
      · exact hu

/-- A slot that is to be filled is left out by one of the loops only. -/
theorem members_alike (h : ∀ el ∈ els, ∀ s, f el = some s → ∃ r, f' el = some r ∧ (r.forget mark = s → good el))
    (hss : els.mapM f = some ss) :
    ∃ rs, orderedTerms f' els = some rs ∧ rs.length ≤ ss.length ∧
      (rs.map (Ordered.forget mark) = ss → ∀ el ∈ els, el.isUnfilled = false ∧ good el) := by
  induction els generalizing ss with
  | nil =>
    cases hss
    exact ⟨[], rfl, le_rfl, by simp⟩
  | cons el els ih =>
    rw [List.forall_mem_cons] at h
    simp only [List.mapM_cons, Option.bind_eq_bind, Option.bind_eq_some_iff, Option.pure_def,
      Option.some.injEq] at hss
    obtain ⟨s, hs, ss, hss, rfl⟩ := hss
    obtain ⟨r, hr, hgood⟩ := h.1 s hs
    obtain ⟨rs, hrs, hle, hall⟩ := ih h.2 hss
    cases hu : el.isUnfilled with
    | true =>
      refine ⟨rs, by simp [orderedTerms, hu, hrs], Nat.le_succ_of_le hle, fun heq => ?_⟩
      have hlen := congrArg List.length heq
      simp only [List.length_map, List.length_cons] at hlen
      omega
    | false =>
      refine ⟨r :: rs, by simp [orderedTerms, hu, hr, hrs], Nat.succ_le_succ hle,
        fun heq => List.forall_mem_cons.2 ?_⟩
      obtain ⟨hhead, htail⟩ := List.cons.inj heq
      exact ⟨⟨hu, hgood hhead⟩, hall htail⟩

theorem terms_forget {rs : List (Ordered α)} (hnil : ∀ el ∈ els, el.isNothing = false)
    (h : ∀ el ∈ els, el.isUnfilled = false → ∀ r, f' el = some r →
      f el = some (r.forget mark) ∧ (r.forget mark = .nil → el.isNothing = true))
    (hrs : orderedTerms f' els = some rs) :
    simplifyTerms f els = some (rs.map (Ordered.forget mark)) := by
  induction els generalizing rs with
  | nil =>
    cases hrs
    rfl
  | cons el els ih =>
    rw [List.forall_mem_cons] at hnil h
    by_cases hu : el = .unfilled
    · subst hu
      exact ih hnil.2 h.2 hrs
    · have hfilled : el.isUnfilled = false := by cases el <;> simp [Any.isUnfilled] at hu ⊢
      rw [orderedTerms, hfilled] at hrs
      obtain ⟨r, hr, hrs⟩ := Option.bind_eq_some_iff.1 hrs
      obtain ⟨rest, hrest, hrs⟩ := Option.bind_eq_some_iff.1 hrs
      obtain rfl := Option.some.inj hrs
      obtain ⟨hf, hne⟩ := h.1 hfilled r hr
      have hr0 : r.forget mark ≠ .nil := fun h0 => Bool.false_ne_true (hnil.1.symm.trans (hne h0))
      rw [simplifyTerms_cons hu hf, ih hnil.2 h.2 hrest, keep_of_ne hr0]
      rfl

end Lists

/-! ## All containers -/

section Walked

variable {g src isText} {mark : α} {c : Container} {v : Any α} {r : Ordered α} {fuel : ℕ}

theorem unguarded_mono {fuel' : ℕ} (hle : fuel ≤ fuel') (h : g.unguarded src isText fuel c = some r) :
    g.unguarded src isText fuel' c = some r := by
  induction fuel generalizing c fuel' r with
  | zero => cases h
  | succ fuel ih =>
    obtain ⟨fuel', rfl⟩ := Nat.exists_eq_add_of_le' hle
    rw [← Nat.add_assoc, unguarded] at *
    exact reduced_mono (fun v _ r => simplifyValue_mono fun c _ r => ih (Nat.le_add_left fuel fuel')) h

/-- Where every container is read alike, so is this one, and so are those in it. -/
theorem allPlain_iff (h : g.opens v = some c) : g.AllPlain src isText v ↔
    g.Plain src isText c ∧ ∀ w ∈ g.followed src isText c, g.AllPlain src isText w := by
  constructor
  · intro hall
    refine ⟨hall c h c .refl, fun w hw c₁ hc₁ c₂ hc₂ => hall c h c₂ ?_⟩
    exact .head (mem_next.2 ⟨w, hw, hc₁⟩) hc₂
  · rintro ⟨hc, hall⟩ c₁ hc₁ c₂ hreach
    obtain rfl := Option.some.inj (h.symm.trans hc₁)
    rcases hreach.cases_head with rfl | ⟨c₃, hc₃, hreach⟩
    · exact hc
    · obtain ⟨w, hw, ho⟩ := mem_next.1 hc₃
      exact hall w hw c₃ ho c₂ hreach

/-- Only where a value is nothing does the walk make nothing of it. -/
theorem isNothing_of_forget {f : Container → Option (Ordered α)}
    (hf : ∀ c r, f c = some r → r.forget mark ≠ .nil) (hr : g.simplifyValue f v = some r)
    (h : r.forget mark = .nil) : v.isNothing = true := by
  unfold simplifyValue at hr
  cases ho : g.opens v with
  | some c =>
    rw [ho] at hr
    exact absurd h (hf c r hr)
  | none =>
    rw [ho] at hr
    obtain rfl := Option.some.inj hr
    cases v with
    | listRef p | orderedMap p =>
      cases p with
      | none => rfl
      | some p => simp [bare, Ordered.forget] at h
    | nil => rfl
    | _ => simp [bare, Ordered.forget] at h

theorem forget_reduced_ne_nil {f : Any α → Option (Ordered α)} (hr : g.reduced src isText f c = some r) :
    r.forget mark ≠ .nil := by
  cases c with
  | list s =>
    obtain ⟨lead, -, hlist⟩ := g.reduced_list src isText s
    rw [hlist, Option.map_eq_some_iff] at hr
    obtain ⟨rs, -, rfl⟩ := hr
    simp [Ordered.forget]
  | orderedMap p | map p =>
    rw [reduced, Option.map_eq_some_iff] at hr
    obtain ⟨ms, -, rfl⟩ := hr
    simp [Ordered.forget]

variable {f : Any α → Option (Ordered α)} {good : Any α → Prop} {s : Simplified α}

variable (g src) in
/-- What `Simplify` makes of a container. -/
def simplified (f : Any α → Option (Simplified α)) : Container → Option (Simplified α)
  | .list s =>
    match g.elements s with
    | [] => some (.list [])
    | .op op :: els => (simplifyTerms f els).map fun ts => .list (.scalar (src op) :: ts)
    | els => (els.mapM f).map .list
  | .orderedMap p => ((g.orderedMap p).keys.mapM fun k => (f ((g.orderedMap p).val k)).map (k, ·)).map .map
  | .map p => ((g.map p).mapM fun m => (f m.2).map (m.1, ·)).map .map

theorem simplify_nothing (hs : simplify g src fuel v = some s) (h : v.isNothing = true) : s = .nil := by
  cases fuel with
  | zero => cases hs
  | succ fuel =>
    cases v with
    | nil =>
      cases hs
      rfl
    | listRef p | orderedMap p =>
      cases p with
      | none =>
        cases hs
        rfl
      | some p => cases h
    | _ => cases h

/-- An object comes out as a map. -/
theorem simplify_of_operatorSource {text : α} (hop : ∀ op, v ≠ .op op)
    (hsrc : g.operatorSource src isText v = some text) (hs : simplify g src fuel v = some s) :
    s ≠ .scalar text := by
  cases fuel with
  | zero => cases hs
  | succ fuel =>
    cases v with
    | op op => exact absurd rfl (hop op)
    | map p =>
      obtain ⟨ms, -, rfl⟩ := Option.map_eq_some_iff.1 hs
      nofun
    | orderedMap p =>
      cases p with
      | none => cases hsrc
      | some p =>
        obtain ⟨ms, -, rfl⟩ := Option.map_eq_some_iff.1 hs
        nofun
    | _ => cases hsrc

theorem list_cases (g : Graph α) (sl : Slice) : g.elements sl = [] ∨ (∃ op els, g.elements sl = .op op :: els) ∨
    ∃ head els, g.elements sl = head :: els ∧ ∀ op, head ≠ .op op := by
  cases he : g.elements sl with
  | nil => exact .inl rfl
  | cons head els =>
    refine .inr ?_
    cases head with
    | op op => exact .inl ⟨op, els, rfl⟩
    | _ => exact .inr ⟨_, els, rfl, nofun⟩

section List

variable {sl : Slice} {op : Op} {head : Any α} {els : List (Any α)}

theorem simplified_op (he : g.elements sl = .op op :: els) (f : Any α → Option (Simplified α)) :
    g.simplified src f (.list sl) = (simplifyTerms f els).map fun ts => .list (.scalar (src op) :: ts) := by
  rw [simplified, he]

theorem reduced_op (he : g.elements sl = .op op :: els) (f : Any α → Option (Ordered α)) :
    g.reduced src isText f (.list sl) = (orderedTerms f els).map fun rs => .list (.scalar (src op) :: rs) := by
  cases h : orderedTerms f els <;> simp [reduced, he, orderedHead, operatorSource, h]

theorem plain_op (he : g.elements sl = .op op :: els) :
    g.Plain src isText (.list sl) ↔ ∀ el ∈ els, el.isNothing = false := by
  rw [Plain, he]

theorem followed_op (he : g.elements sl = .op op :: els) :
    g.followed src isText (.list sl) = els.filter fun el => !el.isUnfilled := by
  rw [followed, he]
  rfl

theorem simplified_list (he : g.elements sl = head :: els) (hop : ∀ op, head ≠ .op op)
    (f : Any α → Option (Simplified α)) :
    g.simplified src f (.list sl) = ((head :: els).mapM f).map .list := by
  rw [simplified, he]
  cases head <;> first | rfl | exact absurd rfl (hop _)

theorem plain_list (he : g.elements sl = head :: els) (hop : ∀ op, head ≠ .op op) :
    g.Plain src isText (.list sl) ↔
      g.operatorSource src isText head = none ∧ ∀ el ∈ head :: els, el.isUnfilled = false := by
  rw [Plain, he]
  cases head <;> first | rfl | exact absurd rfl (hop _)

theorem reduced_list_none (he : g.elements sl = head :: els)
    (hsrc : g.operatorSource src isText head = none) (f : Any α → Option (Ordered α)) :
    g.reduced src isText f (.list sl) = (orderedTerms f (head :: els)).map .list := by
  simp only [reduced, he, orderedHead, hsrc, orderedTerms]
  cases head.isUnfilled <;> cases f head <;> cases orderedTerms f els <;> rfl

theorem followed_list_none (he : g.elements sl = head :: els)
    (hsrc : g.operatorSource src isText head = none) :
    g.followed src isText (.list sl) = (head :: els).filter fun el => !el.isUnfilled := by
  rw [followed, he]
  simp [hsrc]

end List

/-- The members of a map come out alike exactly when their values do. -/
theorem entries_alike {es : List (String × Any α)} {ms : List (String × Simplified α)}
    {f₀ : Any α → Option (Simplified α)}
    (h : ∀ w s, f₀ w = some s → ∃ r, f w = some r ∧ (r.forget mark = s → good w))
    (hms : (es.mapM fun e => (f₀ e.2).map (e.1, ·)) = some ms) :
    ∃ rs, (es.mapM fun e => (f e.2).map (e.1, ·)) = some rs ∧
      ((rs.map fun m => (m.1, m.2.forget mark)) = ms → ∀ e ∈ es, good e.2) := by
  refine mapM_alike (fun e => (f e.2).map (e.1, ·)) (fun m => (m.1, m.2.forget mark)) (fun e => good e.2)
    (fun e _ y hy => ?_) hms
  obtain ⟨s, hs, rfl⟩ := Option.map_eq_some_iff.1 hy
  obtain ⟨r, hr, hgood⟩ := h e.2 s hs
  exact ⟨(e.1, r), by simp [hr], fun heq => hgood (Prod.mk.inj heq).2⟩

/-- Of one container the two make the same exactly when they read it alike and agree on what is in it. -/
theorem reduced_alike (hkeys : ∀ p, (g.orderedMap p).keys.Nodup)
    (h : ∀ w s, simplify g src fuel w = some s → ∃ r, f w = some r ∧ (r.forget mark = s → good w))
    (hs : g.simplified src (simplify g src fuel) c = some s) :
    ∃ r, g.reduced src isText f c = some r ∧
      (r.forget mark = s → g.Plain src isText c ∧ ∀ w ∈ g.followed src isText c, good w) := by
  cases c with
  | orderedMap p =>
    obtain ⟨ms, hms, rfl⟩ := Option.map_eq_some_iff.1 hs
    have hentries : (((g.orderedMap p).keys.map fun k => (k, (g.orderedMap p).val k)).mapM fun e =>
        (simplify g src fuel e.2).map (e.1, ·)) = some ms := by
      rw [List.mapM_map]
      exact hms
    obtain ⟨rs, hrs, hall⟩ := entries_alike h hentries
    refine ⟨.orderedMap rs, ?_, fun heq => ⟨trivial, ?_⟩⟩
    · rw [reduced, orderedMembers_eq (hkeys p) (by simp), hrs]
      rfl
    · rw [followed, List.forall_mem_map]
      rw [Ordered.forget, Ordered.forgetMembers_eq] at heq
      have hgood := hall (Simplified.map.inj heq)
      rw [List.forall_mem_map] at hgood
      exact hgood
  | map p =>
    obtain ⟨ms, hms, rfl⟩ := Option.map_eq_some_iff.1 hs
    obtain ⟨rs, hrs, hall⟩ := entries_alike h hms
    refine ⟨.map rs, by rw [reduced, hrs, Option.map_some], fun heq => ⟨trivial, ?_⟩⟩
    rw [followed, List.forall_mem_map]
    rw [Ordered.forget, Ordered.forgetMembers_eq] at heq
    exact hall (Simplified.map.inj heq)
  | list sl =>
    rcases list_cases g sl with he | ⟨op, els, he⟩ | ⟨head, els, he, hop⟩
    · rw [simplified, he] at hs
      obtain rfl := Option.some.inj hs
      exact ⟨.list [], by simp [reduced, he], fun _ => ⟨by simp [Plain, he], by simp [followed, he]⟩⟩
    · rw [simplified_op he, Option.map_eq_some_iff] at hs
      obtain ⟨ts, hts, rfl⟩ := hs
      obtain ⟨rs, hrs, -, hall⟩ :=
        terms_alike (fun el _ s hs => ⟨simplify_nothing hs, h el s hs⟩) hts
      refine ⟨_, by rw [reduced_op he, hrs, Option.map_some], fun heq => ?_⟩
      rw [Ordered.forget, Ordered.forgetAll_eq, List.map_cons] at heq
      have hgood := hall (List.cons.inj (Simplified.list.inj heq)).2
      rw [plain_op he, followed_op he]
      refine ⟨fun el hel => (hgood el hel).1, fun w hw => ?_⟩
      obtain ⟨hmem, hu⟩ := List.mem_filter.1 hw
      exact (hgood w hmem).2 (by simpa using hu)
    · rw [simplified_list he hop, Option.map_eq_some_iff] at hs
      obtain ⟨ss, hss, rfl⟩ := hs
      cases hsrc : g.operatorSource src isText head with
      | none =>
        obtain ⟨rs, hrs, -, hall⟩ := members_alike (fun el _ => h el) hss
        refine ⟨_, by rw [reduced_list_none he hsrc, hrs, Option.map_some], fun heq => ?_⟩
        rw [Ordered.forget, Ordered.forgetAll_eq] at heq
        have hgood := hall (Simplified.list.inj heq)
        rw [plain_list he hop, followed_list_none he hsrc]
        refine ⟨⟨hsrc, fun el hel => (hgood el hel).1⟩, fun w hw => ?_⟩
        exact (hgood w (List.mem_of_mem_filter hw)).2
      | some text =>
        -- The head is an object, whose text `Simplify` does not read.
        simp only [List.mapM_cons, Option.bind_eq_bind, Option.bind_eq_some_iff, Option.pure_def,
          Option.some.injEq] at hss
        obtain ⟨s, hs, ss, hss, rfl⟩ := hss
        obtain ⟨rs, hrs, -, -⟩ := members_alike (fun el _ => h el) hss
        refine ⟨.list (.scalar text :: rs), ?_, fun heq => ?_⟩
        · simp [reduced, he, orderedHead, hsrc, hrs]
        · rw [Ordered.forget, Ordered.forgetAll_eq, List.map_cons] at heq
          have hhead := (List.cons.inj (Simplified.list.inj heq)).1
          exact absurd hhead.symm (simplify_of_operatorSource hop hsrc hs)

/-- The values of a container come out alike where they are read alike. -/
theorem simplified_of_reduced (hkeys : ∀ p, (g.orderedMap p).keys.Nodup) {f₀ : Any α → Option (Simplified α)}
    (h : ∀ w ∈ g.followed src isText c, ∀ r, f w = some r →
      f₀ w = some (r.forget mark) ∧ (r.forget mark = .nil → w.isNothing = true))
    (hplain : g.Plain src isText c) (hr : g.reduced src isText f c = some r) :
    g.simplified src f₀ c = some (r.forget mark) := by
  have hentry (es : List (String × Any α)) (hes : ∀ e ∈ es, e.2 ∈ g.followed src isText c)
      (rs : List (String × Ordered α)) (hrs : (es.mapM fun e => (f e.2).map (e.1, ·)) = some rs) :
      (es.mapM fun e => (f₀ e.2).map (e.1, ·)) = some (rs.map fun m => (m.1, m.2.forget mark)) := by
    refine mapM_forget (fun e he z hz => ?_) hrs
    obtain ⟨r, hr, rfl⟩ := Option.map_eq_some_iff.1 hz
    rw [(h e.2 (hes e he) r hr).1, Option.map_some]
  cases c with
  | orderedMap p =>
    rw [reduced, orderedMembers_eq (hkeys p) (by simp), Option.map_map, Option.map_eq_some_iff] at hr
    obtain ⟨rs, hrs, rfl⟩ := hr
    have hms := hentry _ (List.forall_mem_map.2 fun k hk => List.mem_map_of_mem hk) rs hrs
    rw [List.mapM_map] at hms
    have hsimp : g.simplified src f₀ (.orderedMap p) = some (.map (rs.map fun m => (m.1, m.2.forget mark))) :=
      congrArg (Option.map Simplified.map) hms
    rw [hsimp]
    exact congrArg (fun ms => some (Simplified.map ms)) (Ordered.forgetMembers_eq mark rs).symm
  | map p =>
    obtain ⟨rs, hrs, rfl⟩ := Option.map_eq_some_iff.1 hr
    rw [simplified, hentry _ (fun e he => List.mem_map_of_mem he) rs hrs, Option.map_some, Ordered.forget,
      Ordered.forgetMembers_eq]
  | list sl =>
    rcases list_cases g sl with he | ⟨op, els, he⟩ | ⟨head, els, he, hop⟩
    · simp only [reduced, he, Option.some.injEq] at hr
      subst hr
      simp [simplified, he, Ordered.forget, Ordered.forgetAll]
    · rw [reduced_op he, Option.map_eq_some_iff] at hr
      obtain ⟨rs, hrs, rfl⟩ := hr
      rw [followed_op he] at h
      have hts : simplifyTerms f₀ els = some (rs.map (Ordered.forget mark)) :=
        terms_forget ((plain_op he).1 hplain) (fun el hel hu => h el (by simp [hel, hu])) hrs
      rw [simplified_op he, hts, Option.map_some, Ordered.forget, Ordered.forgetAll_eq, List.map_cons,
        Ordered.forget]
    · obtain ⟨hsrc, hfilled⟩ := (plain_list he hop).1 hplain
      rw [reduced_list_none he hsrc, Option.map_eq_some_iff] at hr
      obtain ⟨rs, hrs, rfl⟩ := hr
      have hall : (head :: els).filter (fun el => !el.isUnfilled) = head :: els :=
        List.filter_eq_self.2 fun el hel => by simp [hfilled el hel]
      rw [orderedTerms_eq, hall] at hrs
      rw [followed_list_none he hsrc, hall] at h
      rw [simplified_list he hop, mapM_forget (fun el hel z hz => (h el hel z hz).1) hrs, Option.map_some,
        Ordered.forget, Ordered.forgetAll_eq]

/-- Where `Simplify` ends, so does the other walk, and what they make is the same but for the order only
where every container is read alike. -/
theorem unguarded_of_simplify (hkeys : ∀ p, (g.orderedMap p).keys.Nodup)
    (hs : simplify g src fuel v = some s) :
    ∃ r, g.simplifyValue (g.unguarded src isText fuel) v = some r ∧
      (r.forget mark = s → g.AllPlain src isText v) := by
  induction fuel generalizing v s with
  | zero => cases hs
  | succ fuel ih =>
    have hcontainer {c : Container} (hc : g.opens v = some c)
        (hs : g.simplified src (simplify g src fuel) c = some s) :
        ∃ r, g.simplifyValue (g.unguarded src isText (fuel + 1)) v = some r ∧
          (r.forget mark = s → g.AllPlain src isText v) := by
      obtain ⟨r, hr, hgood⟩ := reduced_alike hkeys (fun w s hs => ih hs) hs
      refine ⟨r, ?_, fun heq => (allPlain_iff hc).2 (hgood heq)⟩
      rw [simplifyValue, hc]
      exact hr
    have hbare (hc : g.opens v = none) : ∃ r,
        g.simplifyValue (g.unguarded src isText (fuel + 1)) v = some r ∧
          (r.forget mark = s → g.AllPlain src isText v) := by
      refine ⟨bare v, by rw [simplifyValue, hc], fun _ c hc' => ?_⟩
      rw [hc] at hc'
      cases hc'
    cases v with
    | slice sl =>
      by_cases he : g.elements sl = []
      · exact hbare (by simp [opens, he])
      · exact hcontainer (c := .list sl) (by simp [opens, he]) hs
    | listRef p =>
      cases p with
      | none => exact hbare rfl
      | some p =>
        obtain ⟨r, hr, hgood⟩ := ih (v := .slice (g.box p)) hs
        refine ⟨r, simplifyValue_mono (fun c _ r => unguarded_mono (Nat.le_succ fuel)) hr, hgood⟩
    | orderedMap p =>
      cases p with
      | none => exact hbare rfl
      | some p => exact hcontainer (c := .orderedMap p) rfl hs
    | map p => exact hcontainer (c := .map p) rfl hs
    | _ => exact hbare rfl

theorem opens_slice {sl : Slice} (h : g.opens (.slice sl) = some c) : g.elements sl ≠ [] ∧ c = .list sl := by
  rw [opens] at h
  split_ifs at h with he
  exact ⟨he, (Option.some.inj h).symm⟩

theorem simplify_bare (h : g.opens v = none) (n : ℕ) :
    simplify g src (n + 2) v = some ((bare v).forget mark) := by
  cases v with
  | slice sl =>
    have he : g.elements sl = [] := by simpa [opens] using h
    simp [simplify, he, bare, Ordered.forget, Ordered.forgetAll]
  | listRef p =>
    cases p with
    | none => rfl
    | some p =>
      have he : g.elements (g.box p) = [] := by simpa [opens] using h
      simp [simplify, he, bare, Ordered.forget, Ordered.forgetAll]
  | orderedMap p =>
    cases p with
    | none => rfl
    | some p => cases h
  | map p => cases h
  | _ => rfl

/-- Where every container is read alike and the walk ends, so does `Simplify`, with the same result but for
the order. -/
theorem simplify_of_unguarded (hkeys : ∀ p, (g.orderedMap p).keys.Nodup) (hplain : g.AllPlain src isText v)
    (hr : g.simplifyValue (g.unguarded src isText fuel) v = some r) {fuel' : ℕ}
    (hle : 2 * fuel + 2 ≤ fuel') : simplify g src fuel' v = some (r.forget mark) := by
  induction fuel generalizing v r fuel' with
  | zero =>
    obtain ⟨n, rfl⟩ := Nat.exists_eq_add_of_le' hle
    cases ho : g.opens v with
    | none =>
      rw [simplifyValue, ho] at hr
      obtain rfl := Option.some.inj hr
      exact simplify_bare ho n
    | some c =>
      rw [simplifyValue, ho] at hr
      cases hr
  | succ fuel ih =>
    obtain ⟨n, rfl⟩ := Nat.exists_eq_add_of_le' (le_trans (Nat.le_add_left 2 _) hle)
    cases ho : g.opens v with
    | none =>
      rw [simplifyValue, ho] at hr
      obtain rfl := Option.some.inj hr
      exact simplify_bare ho n
    | some c =>
      obtain ⟨hc, hall⟩ := (allPlain_iff ho).1 hplain
      rw [simplifyValue, ho] at hr
      -- A box takes a step more than the slice in it.
      have hsimplified {m : ℕ} (hm : n ≤ m) : g.simplified src (simplify g src m) c = some (r.forget mark) := by
        refine simplified_of_reduced hkeys (fun w hw r' hr' => ⟨ih (hall w hw) hr' (by omega), ?_⟩) hc hr
        refine isNothing_of_forget (fun c r hcr => ?_) hr'
        cases fuel with
        | zero => cases hcr
        | succ fuel => exact forget_reduced_ne_nil hcr
      cases v with
      | slice sl =>
        obtain ⟨-, rfl⟩ := opens_slice ho
        exact hsimplified (Nat.le_succ n)
      | listRef p =>
        cases p with
        | none => cases ho
        | some p =>
          obtain ⟨-, rfl⟩ := opens_slice (g := g) (c := c) ho
          exact hsimplified le_rfl
      | orderedMap p =>
        cases p with
        | none => cases ho
        | some p =>
          cases ho
          exact hsimplified (Nat.le_succ n)
      | map p =>
        cases ho
        exact hsimplified (Nat.le_succ n)
      | _ => cases ho

theorem followed_ne_none (hkeys : ∀ p, (g.orderedMap p).keys.Nodup) (hr : g.reduced src isText f c = some r) :
    ∀ w ∈ g.followed src isText c, f w ≠ none := by
  have hne : g.reduced src isText f c ≠ none := by rw [hr]; nofun
  cases c with
  | list sl =>
    obtain ⟨lead, -, hlist⟩ := g.reduced_list src isText sl
    rw [hlist, Ne, Option.map_eq_none_iff] at hne
    exact (mapM_ne_none _).1 hne
  | orderedMap p =>
    rw [reduced, orderedMembers_eq (hkeys p) (by simp), Option.map_map, Ne, Option.map_eq_none_iff,
      List.mapM_map] at hne
    refine List.forall_mem_map.2 fun k hk => ?_
    have hk := (mapM_ne_none _).1 hne k hk
    simpa using hk
  | map p =>
    rw [reduced, Ne, Option.map_eq_none_iff] at hne
    refine List.forall_mem_map.2 fun m hm => ?_
    have hm := (mapM_ne_none _).1 hne m hm
    simpa using hm

/-- Where the walk that keeps no account ends, no container holds itself. -/
theorem not_circular_of_unguarded (hkeys : ∀ p, (g.orderedMap p).keys.Nodup)
    (hr : g.simplifyValue (g.unguarded src isText fuel) v = some r) : ¬ g.Circular src isText v := by
  have hends : ∀ fuel c, g.unguarded src isText fuel c ≠ none → Ends (g.next src isText) c := by
    intro fuel
    induction fuel with
    | zero => exact fun c h => absurd rfl h
    | succ fuel ih =>
      intro c h
      obtain ⟨r, hr⟩ := Option.ne_none_iff_exists'.1 h
      refine Acc.intro c fun c' hc' => ih c' ?_
      obtain ⟨w, hw, ho⟩ := mem_next.1 hc'
      have hw := followed_ne_none hkeys hr w hw
      rwa [simplifyValue, ho] at hw
  rintro ⟨c, ho, hloop⟩
  rw [simplifyValue, ho] at hr
  have hr : g.unguarded src isText fuel c = some r := hr
  exact not_loop_of_acc (hends fuel c (hr ▸ Option.some_ne_none r)) hloop

theorem simplifyOrdered_mono {fuel' : ℕ} (hle : fuel ≤ fuel')
    (h : g.simplifyOrdered src isText fuel v = some r) : g.simplifyOrdered src isText fuel' v = some r :=
  simplifyValue_mono (fun _ _ _ => container_mono hle) h

/-- The two simplifiers make the same of a value but for the order exactly where the walk comes to no
container that holds itself and to none they read differently. -/
theorem agree_iff (src : Op → α) (isText : α → Bool) (mark : α) (hkeys : ∀ p, (g.orderedMap p).keys.Nodup)
    (v : Any α) :
    g.Agree src isText mark v ↔ ¬ g.Circular src isText v ∧ g.AllPlain src isText v := by
  obtain ⟨r₀, hord, -⟩ := g.simplifyOrdered_ends src isText v
  have hfree (hcirc : ¬ g.Circular src isText v) :
      ∃ n, g.simplifyValue (g.unguarded src isText n) v = some r₀ :=
    ⟨_, unguarded_of_simplifyOrdered hcirc (hord _ (Nat.lt_succ_self _))⟩
  constructor
  · rintro ⟨r, fuel, hr, fuel', hs⟩
    obtain ⟨r', hr', hgood⟩ := unguarded_of_simplify hkeys hs
    have hcirc := not_circular_of_unguarded hkeys hr'
    obtain ⟨n, hn⟩ := hfree hcirc
    have heq₀ : r = r₀ := by
      have hlong := simplifyOrdered_mono (Nat.le_add_right fuel ((g.containers v).length + 1)) hr
      exact Option.some.inj (hlong.symm.trans (hord _ (by omega)))
    have heq' : r' = r₀ := by
      have hlong := simplifyValue_mono (fun c _ r => unguarded_mono (Nat.le_add_right fuel' n)) hr'
      have hlong₀ := simplifyValue_mono (fun c _ r => unguarded_mono (Nat.le_add_left n fuel')) hn
      exact Option.some.inj (hlong.symm.trans hlong₀)
    exact ⟨hcirc, hgood (by rw [heq', heq₀])⟩
  · rintro ⟨hcirc, hplain⟩
    obtain ⟨n, hn⟩ := hfree hcirc
    exact ⟨r₀, _, hord _ (Nat.lt_succ_self _), _, simplify_of_unguarded hkeys hplain hn le_rfl⟩

end Walked

/-! ## A sum with nothing in it -/

/-- `1+null` and `1+2`. -/
def sums : Graph String :=
  ⟨[], [[.op addition, .scalar "1", .nil], [.op addition, .scalar "1", .scalar "2"]], [], []⟩

/-- Only of the first the simplifiers make something different. -/
theorem agree_iff_sums : ¬ sums.Agree Op.src (· ≠ "") "[CIRCLE]" (.slice ⟨0, 0, 3⟩) ∧
    sums.Agree Op.src (· ≠ "") "[CIRCLE]" (.slice ⟨1, 0, 3⟩) := by
  have hkeys : ∀ p, (sums.orderedMap p).keys.Nodup := fun p => by simp [sums, orderedMap]
  have hnext : sums.next Op.src (· ≠ "") (.list ⟨1, 0, 3⟩) = [] := rfl
  have hopens : sums.opens (.slice ⟨1, 0, 3⟩) = some (.list ⟨1, 0, 3⟩) := rfl
  constructor
  · intro h
    have hplain := ((agree_iff Op.src (· ≠ "") "[CIRCLE]" hkeys _).1 h).2 _ rfl _ .refl
    exact absurd (hplain .nil (by simp)) (by decide)
  · refine (agree_iff Op.src (· ≠ "") "[CIRCLE]" hkeys _).2 ⟨?_, ?_⟩
    · rintro ⟨c, hc, hloop⟩
      obtain rfl := Option.some.inj (hopens.symm.trans hc)
      exact not_loop_of_acc (Acc.intro _ fun c' hc' => by rw [Holds, hnext] at hc'; cases hc') hloop
    · intro c hc c' hc'
      obtain rfl := Option.some.inj (hopens.symm.trans hc)
      rcases hc'.cases_head with rfl | ⟨c₁, hc₁, -⟩
      · exact (plain_op rfl).2 (by decide)
      · rw [Holds, hnext] at hc₁
        cases hc₁

end Graph

end TabnasExpr.Go
