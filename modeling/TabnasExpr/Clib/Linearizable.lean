import TabnasExpr.Clib.Exclusion

/-!
# The registry is linearizable

Whatever calls come from whatever threads, in whatever order their steps are taken, every reply is the
one the calls would have got one at a time, in an order in which a call that returned before another was
made comes first (`registry_linearizable`).

A load takes effect when it stores its parser, a free when it deletes one, and a parse when its parser
is done.  A parse that has found its parser before the handle is freed may be done after it; it then
takes effect right before the free.
-/

namespace TabnasExpr.Clib

open Linear

variable {ι σ P V D : Type*} {host : Host σ P V D}

/-! ### What a call has done -/

section Pc

variable (host)

/-- What the call does to the registry is what the operation does. -/
def Write.Serves : Write σ → Call → Prop
  | .insert p, op => ∃ optsJSON, op = .load optsJSON ∧ host.build optsJSON = .ok p
  | .delete handle, op => op = .free handle

/-- The call is on its way to the effect of the operation. -/
def Pc.Serves {R : Type*} : Pc σ R → Call → Prop
  | .load optsJSON, op => op = .load optsJSON
  | .lock w, op | .drain w, op => w.Serves host op
  | .readID p, op | .writeID p _, op | .fetchID p, op | .store p _, op => (Write.insert p).Serves host op
  | .delete handle, op => op = .free handle
  | .rlock handle src, op | .lookup handle src, op => op = .parse handle src
  | .runlock (some g) src, op | .muLock g src, op | .parse g src, op | .parsed g src _, op =>
    op = .parse (numbered g) src
  | _, _ => False

end Pc

/-- The reply the call is to give, once it has had its effect. -/
def Pc.effect : Pc σ (Reply P D) → Option (Reply P D)
  | .unlock r | .muUnlock _ r | .reply r | .returned r => some r
  | .runlock none _ => some noParser
  | _ => none

/-- The call has found the instance and is yet to parse. -/
def Pc.Seeks {R : Type*} (g : ℕ) : Pc σ R → Prop
  | .runlock g' _ => g' = some g
  | .muLock g' _ | .parse g' _ | .parsed g' _ _ => g' = g
  | _ => False

/-- The parser of an instance. -/
def State.parser {R : Type*} (s : State ι σ R) (g : ℕ) : Option σ := (s.instances.cell g).map Instance.parse

/-! ### What links a state to a linearization -/

variable (host)

/-- The entries are of the calls that have had their effect. -/
structure Logged (s : State ι σ (Reply P D)) (h : List (Event ι Call (Reply P D)))
    (L : List (Entry ι Call (Reply P D))) : Prop where
  linearizes : Linearizes (apply host) (Table.empty σ) h L
  known : ∀ c op, .call c op ∈ h → s.calls c ≠ none
  returned : ∀ c r, .ret c r ∈ h → s.calls c = some (.returned r)
  called : ∀ c pc, s.calls c = some pc → ∃ op, .call c op ∈ h ∧
    (∀ r, pc.effect = some r → ⟨c, op, r⟩ ∈ L) ∧
    (pc.effect = none → pc.Serves host op ∧ ∀ x ∈ L, x.call ≠ c)

/-- The table is what is in the map. -/
structure Tabled (s : State ι σ (Reply P D)) (t : Table σ) : Prop where
  nextID : t.nextID = numbered s.instances.last
  live : ∀ handle, t.live handle = (s.loaded handle).bind s.parser

/-- The operation leaves no trace of what was under the handle. -/
def Hides (t : Table σ) (handle : ℤ) (op : Call) : Prop :=
  ∀ p, apply host (t.set handle p) op = apply host t op

/-- Where an instance is no longer in the map, `off` is the entry that took it out: right before it, its
parser is in the state it now is, and no call that is yet to parse with it came after a later one had
returned. -/
structure Detaches (s : State ι σ (Reply P D)) (h : List (Event ι Call (Reply P D)))
    (L : List (Entry ι Call (Reply P D))) (off : ℕ → Option (Entry ι Call (Reply P D))) : Prop where
  attached : ∀ g, s.parser g ≠ none → off g = none → s.loaded (numbered g) = some g
  detached : ∀ g x, off g = some x → ∃ t p, s.parser g = some p ∧ t.live (numbered g) = some p ∧
    Hides host t (numbered g) x.op ∧ Place (apply host) (Table.empty σ) L x t
      fun c => ∃ d, s.At (Pc.Seeks g) d ∧ Precedes h c d
  absent : ∀ g x handle, off g = some x → s.loaded handle ≠ some g
  injective : ∀ g g' x, off g = some x → off g' = some x → g = g'

variable {host} {s s' : State ι σ (Reply P D)} {h : List (Event ι Call (Reply P D))}
  {L L₁ L₂ : List (Entry ι Call (Reply P D))} {c d : ι} {pc pc' : Pc σ (Reply P D)} {op : Call}
  {r : Reply P D} {t : Table σ}

/-! ### The log -/

namespace Logged

theorem not_returned (hL : Logged host s h L) (hc : s.calls c = some pc) (he : ∀ r, pc ≠ .returned r) :
    ∀ r, .ret c r ∉ h := fun r hr => by
  have hr' := hL.returned c r hr
  rw [hc] at hr'
  exact he r (Option.some.inj hr')

variable [DecidableEq ι]

/-- A step that has no effect. -/
theorem silent (hL : Logged host s h L) (hc : s.calls c = some pc)
    (hs : ∀ d, s'.calls d = if d = c then some pc' else s.calls d) (hr : ∀ r, pc ≠ .returned r)
    (he : pc'.effect = pc.effect) (hop : ∀ op, pc.Serves host op → pc'.Serves host op) :
    Logged host s' h L where
  linearizes := hL.linearizes
  known d op hd := by
    rw [hs]
    split_ifs
    · simp
    · exact hL.known d op hd
  returned d r hd := by
    rw [hs, if_neg]
    · exact hL.returned d r hd
    · rintro rfl
      exact hL.not_returned hc hr r hd
  called d pd hd := by
    rw [hs] at hd
    split_ifs at hd with hdc
    · obtain rfl := hdc
      obtain rfl := Option.some.inj hd
      obtain ⟨op, hcall, hdone, hyet⟩ := hL.called d pc hc
      exact ⟨op, hcall, fun r hr => hdone r (he ▸ hr), fun hn => ⟨hop op (hyet (he ▸ hn)).1, (hyet (he ▸ hn)).2⟩⟩
    · exact hL.called d pd hd

/-- A call has its effect. -/
theorem effect (hL : Logged host s h (L₁ ++ L₂)) (hc : s.calls c = some pc) (hn : pc.effect = none)
    (hcall : .call c op ∈ h) (hs : ∀ d, s'.calls d = if d = c then some pc' else s.calls d)
    (he : pc'.effect = some r) (hp : ∃ t, Plays (apply host) (Table.empty σ) (L₁ ++ ⟨c, op, r⟩ :: L₂) t)
    (horder : ∀ x ∈ L₂, ¬ Precedes h x.call c) : Logged host s' h (L₁ ++ ⟨c, op, r⟩ :: L₂) := by
  have hr : ∀ r, pc ≠ .returned r := by
    rintro r rfl
    cases hn
  have hret := hL.not_returned hc hr
  obtain ⟨_, -, -, hyet⟩ := hL.called c pc hc
  refine ⟨hL.linearizes.insert hp hcall hret (hyet hn).2 horder, fun d op hd => ?_, fun d r hd => ?_,
    fun d pd hd => ?_⟩
  · rw [hs]
    split_ifs
    · simp
    · exact hL.known d op hd
  · rw [hs, if_neg]
    · exact hL.returned d r hd
    · rintro rfl
      exact hret r hd
  · rw [hs] at hd
    split_ifs at hd with hdc
    · obtain rfl := hdc
      obtain rfl := Option.some.inj hd
      refine ⟨op, hcall, fun r' hr' => ?_, fun hn' => ?_⟩
      · obtain rfl := Option.some.inj (he.symm.trans hr')
        simp
      · rw [he] at hn'
        cases hn'
    · obtain ⟨op', hcall', hdone, hyet'⟩ := hL.called d pd hd
      refine ⟨op', hcall', fun r hr => ?_, fun hn' => ⟨(hyet' hn').1, fun x hx => ?_⟩⟩
      · have hm := hdone r hr
        simp only [List.mem_append, List.mem_cons] at hm ⊢
        tauto
      · simp only [List.mem_append, List.mem_cons] at hx
        rcases hx with hx | rfl | hx
        · exact (hyet' hn').2 x (by simp [hx])
        · exact fun hcd => hdc hcd.symm
        · exact (hyet' hn').2 x (by simp [hx])

/-- A call is made. -/
theorem invoke (hL : Logged host s h L) (hc : s.calls c = none) (op : Call) :
    Logged host (s.goto c (start op)) (h ++ [.call c op]) L where
  linearizes := hL.linearizes.invoke fun op hop => hL.known c op hop hc
  known d op' hd := by
    rw [State.calls_goto]
    split_ifs with hdc
    · simp
    · refine hL.known d op' ?_
      simpa [hdc] using hd
  returned d r hd := by
    have hr := hL.returned d r (by simpa using hd)
    rw [State.calls_goto, if_neg]
    · exact hr
    · rintro rfl
      rw [hc] at hr
      cases hr
  called d pd hd := by
    rw [State.calls_goto] at hd
    split_ifs at hd with hdc
    · obtain rfl := hdc
      obtain rfl := Option.some.inj hd
      refine ⟨op, by simp, fun r hr => ?_, fun _ => ⟨by cases op <;> rfl, fun x hx he => ?_⟩⟩
      · cases op <;> cases hr
      · exact hL.known _ _ (he ▸ hL.linearizes.called x hx) hc
    · obtain ⟨op', hcall, hdone, hyet⟩ := hL.called d pd hd
      exact ⟨op', List.mem_append_left _ hcall, hdone, hyet⟩

/-- A call has its effect after all others. -/
theorem effect_last (hL : Logged host s h L) (hc : s.calls c = some pc) (hn : pc.effect = none)
    (hcall : .call c op ∈ h) (hs : ∀ d, s'.calls d = if d = c then some pc' else s.calls d)
    (he : pc'.effect = some r) {t : Table σ} (hp : Plays (apply host) (Table.empty σ) (L ++ [⟨c, op, r⟩]) t) :
    Logged host s' h (L ++ [⟨c, op, r⟩]) := by
  rw [← List.append_nil L] at hL
  exact hL.effect hc hn hcall hs he ⟨t, hp⟩ (by simp)

/-- A call returns. -/
theorem reply (hL : Logged host s h L) (hc : s.calls c = some (.reply r)) :
    Logged host (s.goto c (.returned r)) (h ++ [.ret c r]) L := by
  obtain ⟨op, -, hdone, -⟩ := hL.called c _ hc
  have hS : Logged host (s.goto c (.returned r)) h L :=
    hL.silent hc (fun d => State.calls_goto) (by simp) rfl fun _ hop => hop
  refine ⟨hL.linearizes.answer (hdone r rfl), fun d op hd => hS.known d op (by simpa using hd),
    fun d r' hd => ?_, fun d pd hd => ?_⟩
  · rcases List.mem_append.1 hd with hd | hd
    · exact hS.returned d r' hd
    · obtain ⟨rfl, rfl⟩ := Event.ret.inj (List.mem_singleton.1 hd)
      exact (State.calls_goto ..).trans (if_pos rfl)
  · obtain ⟨op', hcall, hx⟩ := hS.called d pd hd
    exact ⟨op', List.mem_append_left _ hcall, hx⟩

end Logged

/-! ### The table -/

section Table

variable {handle x : ℤ} {p q : Option σ}

@[simp] theorem Table.live_set : (t.set handle p).live x = if x = handle then p else t.live x :=
  Function.update_apply ..

@[simp] theorem Table.set_set : (t.set handle p).set handle q = t.set handle q := by
  simp [Table.set]

theorem hides_free : Hides host t handle (.free handle) := fun p => by simp [apply]

/-- A load takes the place of what is under its handle. -/
theorem hides_load {optsJSON : String} {p : σ} (hb : host.build optsJSON = .ok p) :
    Hides host t (int64 (t.nextID + 1)) (.load optsJSON) := fun q => by
  simp [apply, hb, Table.set]

/-- What hides a parser hides it in another state too. -/
theorem Hides.set (hx : Hides host t handle op) (p : Option σ) : Hides host (t.set handle p) handle op :=
  fun q => by rw [Table.set_set, hx, hx]

end Table

theorem Tabled.same (hT : Tabled s t) (hlast : s'.instances.last = s.instances.last)
    (hl : ∀ handle, s'.loaded handle = s.loaded handle) (hp : ∀ g, s'.parser g = s.parser g) :
    Tabled s' t where
  nextID := by rw [hlast, hT.nextID]
  live handle := by rw [hT.live, hl, funext hp]

/-! ### Instances that are no longer in the map -/

namespace Detaches

variable {off : ℕ → Option (Entry ι Call (Reply P D))} {e : Entry ι Call (Reply P D)}
  (hD : Detaches host s h L off)

include hD

/-- A step that does nothing to the map and to the parsers. -/
theorem same {h' : List (Event ι Call (Reply P D))} (hl : ∀ handle, s'.loaded handle = s.loaded handle)
    (hp : ∀ g, s'.parser g = s.parser g)
    (hseek : ∀ g d, off g ≠ none → s'.At (Pc.Seeks g) d → s.At (Pc.Seeks g) d ∧
      ∀ y, Precedes h' y d → Precedes h y d) :
    Detaches host s' h' L off where
  attached g hg hx := (hl _).trans (hD.attached g (hp g ▸ hg) hx)
  detached g x hx := by
    obtain ⟨t, p, hpg, ht, hH, hP⟩ := hD.detached g x hx
    refine ⟨t, p, (hp g).trans hpg, ht, hH, hP.mono ?_⟩
    rintro c ⟨d, hd, hcd⟩
    obtain ⟨hd', hh⟩ := hseek g d (by simp [hx]) hd
    exact ⟨d, hd', hh c hcd⟩
  absent g x handle hx := by
    rw [hl]
    exact hD.absent g x handle hx
  injective := hD.injective

/-- A call has its effect behind all others, and leaves the map as it is. -/
theorem concat (he : ∀ d, ¬ Precedes h e.call d) (hl : ∀ handle, s'.loaded handle = s.loaded handle)
    (hp : ∀ g, off g ≠ none → s'.parser g = s.parser g) (hex : ∀ g, s'.parser g ≠ none → s.parser g ≠ none)
    (hseek : ∀ g d, s'.At (Pc.Seeks g) d → s.At (Pc.Seeks g) d) :
    Detaches host s' h (L ++ [e]) off where
  attached g hg hx := (hl _).trans (hD.attached g (hex g hg) hx)
  detached g x hx := by
    obtain ⟨t, p, hpg, ht, hH, hP⟩ := hD.detached g x hx
    refine ⟨t, p, (hp g (by simp [hx])).trans hpg, ht, hH, Place.concat (hP.mono ?_) ?_⟩
    · rintro c ⟨d, hd, hcd⟩
      exact ⟨d, hseek g d hd, hcd⟩
    · rintro ⟨d, -, hed⟩
      exact he d hed
  absent g x handle hx := by
    rw [hl]
    exact hD.absent g x handle hx
  injective := hD.injective

/-- A call takes what is under a handle out of the map, and may put a new instance there. -/
theorem detach {handle : ℤ} {o : Option ℕ} (hP : Plays (apply host) (Table.empty σ) L t)
    (hT : Tabled s t) (hG : ∀ x g, s.loaded x = some g → x = numbered g ∧ s.parser g ≠ none)
    (hH : Hides host t handle e.op) (he : ∀ d, ¬ Precedes h e.call d) (hnew : ∀ x ∈ L, x.call ≠ e.call)
    (hl : ∀ x, s'.loaded x = if x = handle then o else s.loaded x)
    (ho : ∀ g, o = some g → s.parser g = none)
    (hp : ∀ g, s.parser g ≠ none → s'.parser g = s.parser g)
    (hex : ∀ g, s'.parser g ≠ none → s.parser g ≠ none ∨ o = some g ∧ handle = numbered g)
    (hseek : ∀ g d, s'.At (Pc.Seeks g) d → s.At (Pc.Seeks g) d) :
    Detaches host s' h (L ++ [e]) fun g => if s.loaded handle = some g then some e else off g where
  attached g hg hx := by
    split_ifs at hx with hgh
    rcases hex g hg with hg' | ⟨ho', hh⟩
    · have ha := hD.attached g hg' hx
      rw [hl, if_neg, ha]
      exact fun hh => hgh (hh ▸ ha)
    · rw [hl, if_pos hh.symm, ho']
  detached g x hx := by
    split_ifs at hx with hgh
    · obtain rfl := Option.some.inj hx
      obtain ⟨hh, hg⟩ := hG handle g hgh
      obtain ⟨p, hpg⟩ := Option.ne_none_iff_exists'.1 hg
      refine ⟨t, p, (hp g hg).trans hpg, ?_, hh ▸ hH, Place.last hP ?_⟩
      · rw [← hh, hT.live, hgh, Option.bind_some, hpg]
      · rintro ⟨d, -, hed⟩
        exact he d hed
    · obtain ⟨t', p, hpg, ht, hH', hP'⟩ := hD.detached g x hx
      refine ⟨t', p, (hp g (by simp [hpg])).trans hpg, ht, hH', Place.concat (hP'.mono ?_) ?_⟩
      · rintro c ⟨d, hd, hcd⟩
        exact ⟨d, hseek g d hd, hcd⟩
      · rintro ⟨d, -, hed⟩
        exact he d hed
  absent g x y hx := by
    have hg : s.parser g ≠ none := by
      split_ifs at hx with hgh
      · exact (hG handle g hgh).2
      · obtain ⟨_, p, hpg, -⟩ := hD.detached g x hx
        simp [hpg]
    rw [hl]
    split_ifs with hy
    · exact fun ho' => hg (ho g ho')
    · split_ifs at hx with hgh
      · exact fun hyg => hy ((hG y g hyg).1.trans (hG handle g hgh).1.symm)
      · exact hD.absent g x y hx
  injective g g' x hx hx' := by
    have hold (g : ℕ) (hx : off g = some e) : False := by
      obtain ⟨_, _, -, -, -, hP⟩ := hD.detached g e hx
      exact hnew e hP.mem rfl
    split_ifs at hx hx' with hg hg'
    · exact Option.some.inj (hg.symm.trans hg')
    · exact (hold g' (hx'.trans hx.symm)).elim
    · exact (hold g (hx.trans hx'.symm)).elim
    · exact hD.injective g g' x hx hx'

/-- A call has its effect on a parser that is no longer in the map, before the entry that took it out. -/
theorem insert {g : ℕ} {x : Entry ι Call (Reply P D)} {p : σ} (hL : L = L₁ ++ x :: L₂)
    (hx : off g = some x) (hP : Plays (apply host) (Table.empty σ) L₁ t)
    (hH : Hides host t (numbered g) x.op) (hQ : ∀ y ∈ x :: L₂, ∀ d, s.At (Pc.Seeks g) d → ¬ Precedes h y.call d)
    (happly : apply host t e.op = (e.ret, t.set (numbered g) (some p))) (he : ∀ d, ¬ Precedes h e.call d)
    (hl : ∀ handle, s'.loaded handle = s.loaded handle)
    (hp : ∀ j, s'.parser j = if j = g then some p else s.parser j)
    (hseek : ∀ g d, s'.At (Pc.Seeks g) d → s.At (Pc.Seeks g) d) :
    Detaches host s' h (L₁ ++ e :: x :: L₂) off where
  attached j hj hx := by
    refine (hl _).trans (hD.attached j ?_ hx)
    rw [hp] at hj
    split_ifs at hj with hjg
    · obtain ⟨_, p, hpg, -⟩ := hD.detached g _ ‹_›
      simp [hjg, hpg]
    · exact hj
  detached j y hy := by
    rw [hp]
    split_ifs with hjg
    · obtain rfl := hjg
      obtain rfl : x = y := Option.some.inj (hx.symm.trans hy)
      refine ⟨t.set (numbered j) (some p), p, rfl, by simp, hH.set _, L₁ ++ [e], L₂, by simp, ?_, ?_⟩
      · have hc := hP.concat (e := e) (by rw [happly])
        rwa [happly] at hc
      · rintro z hz ⟨d, hd, hcd⟩
        exact hQ z hz d (hseek j d hd) hcd
    · obtain ⟨t', q, hq, ht, hH', hP'⟩ := hD.detached j y hy
      rw [hL] at hP'
      refine ⟨t', q, hq, ht, hH', Place.insert (hP'.mono ?_) ?_ hP (by rw [happly]) ?_ ?_⟩
      · rintro c ⟨d, hd, hcd⟩
        exact ⟨d, hseek j d hd, hcd⟩
      · rintro rfl
        exact hjg (hD.injective j g y hy hx)
      · rw [happly]
        exact hH _
      · rintro ⟨d, -, hed⟩
        exact he d hed
  absent j y handle hy := by
    rw [hl]
    exact hD.absent j y handle hy
  injective := hD.injective

end Detaches

/-! ### Runs -/

section Runs

variable [DecidableEq ι] {o : Option (Reply P D)}

/-- The state is what a linearization of the history leads to. -/
def Linked (host : Host σ P V D) (s : State ι σ (Reply P D)) (h : List (Event ι Call (Reply P D))) :
    Prop :=
  ∃ L t off, Logged host s h L ∧ Plays (apply host) (Table.empty σ) L t ∧ Tabled s t ∧
    Detaches host s h L off

omit [DecidableEq ι] in
theorem linked_init : Linked host (State.init ι σ (Reply P D)) [] := by
  refine ⟨[], Table.empty σ, fun _ => none, ⟨.nil, by simp, by simp, ?_⟩, rfl, ⟨?_, fun _ => rfl⟩,
    ⟨fun g hg => absurd rfl hg, by simp, by simp, by simp⟩⟩
  · intro c pc hc
    cases hc
  · simp [Table.empty, State.init, Store.empty, numbered, int64]

/-- A call that has its effect seeks no parser. -/
theorem seeks_of_effect (hs : ∀ d, s'.calls d = if d = c then some pc' else s.calls d)
    (he : pc'.effect = some r) (g : ℕ) (d : ι) (hd : s'.At (Pc.Seeks g) d) : s.At (Pc.Seeks g) d := by
  obtain ⟨pd, hpd, hg⟩ := hd
  rw [hs] at hpd
  split_ifs at hpd with hdc
  · obtain rfl := Option.some.inj hpd
    cases pc' with
    | runlock g' src =>
      obtain rfl : g' = some g := hg
      cases he
    | muLock | parse | parsed => cases he
    | _ => exact hg.elim
  · exact ⟨pd, hpd, hg⟩

omit [DecidableEq ι] in
theorem Guarded.parser_of_parsed (hG : Guarded s) {g : ℕ} {src : String} {p : σ}
    (hc : s.calls c = some (.parsed g src p)) : s.parser g = some p := by
  obtain ⟨i, hi⟩ := Option.ne_none_iff_exists'.1 (hG.used c g ⟨_, hc, rfl⟩)
  rw [State.parser, hi, Option.map_some, hG.kept c g src p i hc hi]

namespace Linked

/-- A call is made. -/
theorem invoke (hK : Linked host s h) (hc : s.calls c = none) (op : Call) :
    Linked host (s.goto c (start op)) (h ++ [.call c op]) := by
  obtain ⟨L, t, off, hL, hP, hT, hD⟩ := hK
  refine ⟨L, t, off, hL.invoke hc op, hP, hT.same rfl (fun _ => rfl) fun _ => rfl,
    hD.same (fun _ => rfl) (fun _ => rfl) fun g d _ hd => ?_⟩
  have hd' : s.At (Pc.Seeks g) d := (at_start hc (by cases op <;> exact id)).1 hd
  refine ⟨hd', fun y => (precedes_call ?_).1⟩
  rintro rfl
  obtain ⟨pc, hpc, -⟩ := hd'
  rw [hc] at hpc
  cases hpc

/-- A call returns. -/
theorem reply (hK : Linked host s h) (hc : s.calls c = some (.reply r)) :
    Linked host (s.goto c (.returned r)) (h ++ [.ret c r]) := by
  obtain ⟨L, t, off, hL, hP, hT, hD⟩ := hK
  refine ⟨L, t, off, hL.reply hc, hP, hT.same rfl (fun _ => rfl) fun _ => rfl,
    hD.same (fun _ => rfl) (fun _ => rfl) fun g d _ hd => ⟨?_, fun y => precedes_ret.1⟩⟩
  rw [at_goto] at hd
  split_ifs at hd
  · exact hd.elim
  · exact hd

/-- A call goes on without an effect. -/
theorem silent (hK : Linked host s h) (hc : s.calls c = some pc)
    (hs : ∀ d, s'.calls d = if d = c then some pc' else s.calls d) (hr : ∀ r, pc ≠ .returned r)
    (he : pc'.effect = pc.effect) (hop : ∀ op, pc.Serves host op → pc'.Serves host op)
    (hlast : s'.instances.last = s.instances.last) (hl : ∀ handle, s'.loaded handle = s.loaded handle)
    (hp : ∀ g, s'.parser g = s.parser g)
    (hseek : ∀ g, pc'.Seeks g → pc.Seeks g ∨ ∃ handle, s.loaded handle = some g) :
    Linked host s' h := by
  obtain ⟨L, t, off, hL, hP, hT, hD⟩ := hK
  refine ⟨L, t, off, hL.silent hc hs hr he hop, hP, hT.same hlast hl hp,
    hD.same hl hp fun g d hoff hd => ⟨?_, fun y => id⟩⟩
  obtain ⟨pd, hpd, hg⟩ := hd
  rw [hs] at hpd
  split_ifs at hpd with hdc
  · obtain rfl := hdc
    obtain rfl := Option.some.inj hpd
    obtain hg | ⟨handle, hg⟩ := hseek g hg
    · exact ⟨pc, hc, hg⟩
    · obtain ⟨x, hx⟩ := Option.ne_none_iff_exists'.1 hoff
      exact absurd hg (hD.absent g x handle hx)
  · exact ⟨pd, hpd, hg⟩

/-- A call has its effect behind all others, and changes no parser but one that is in the map. -/
theorem concat (hK : Linked host s h) (hc : s.calls c = some pc) (hn : pc.effect = none)
    (hs : ∀ d, s'.calls d = if d = c then some pc' else s.calls d) (hpc' : pc'.effect = some r)
    (hlast : s'.instances.last = s.instances.last) (hl : ∀ handle, s'.loaded handle = s.loaded handle)
    (hex : ∀ g, s'.parser g ≠ none → s.parser g ≠ none)
    (hp : ∀ g, (∀ handle, s.loaded handle ≠ some g) → s'.parser g = s.parser g)
    (happly : ∀ op t, pc.Serves host op → Tabled s t →
      (apply host t op).1 = r ∧ (apply host t op).2.nextID = t.nextID ∧
        ∀ handle, (apply host t op).2.live handle = (s.loaded handle).bind s'.parser) :
    Linked host s' h := by
  obtain ⟨L, t, off, hL, hP, hT, hD⟩ := hK
  obtain ⟨op, hcall, -, hyet⟩ := hL.called c pc hc
  obtain ⟨hr, hnext, hlive⟩ := happly op t (hyet hn).1 hT
  have hret : ∀ r, .ret c r ∉ h := hL.not_returned hc (by rintro r rfl; cases hn)
  have hprec : ∀ d, ¬ Precedes h c d := fun d => not_precedes_of_not_returned hret
  have hP' := hP.concat (e := ⟨c, op, r⟩) hr
  have hL' := hL.effect_last hc hn hcall hs hpc' hP'
  refine ⟨L ++ [⟨c, op, r⟩], _, off, hL', hP', ⟨?_, fun handle => ?_⟩,
    hD.concat hprec hl ?_ hex (seeks_of_effect hs hpc')⟩
  · rw [hlast, hnext, hT.nextID]
  · rw [hlive, hl]
  · intro g hg
    obtain ⟨x, hx⟩ := Option.ne_none_iff_exists'.1 hg
    exact hp g fun handle => hD.absent g x handle hx

/-- A call has its effect on the map. -/
theorem detach (hK : Linked host s h) (hG : Guarded s) {handle : ℤ} {o : Option ℕ}
    (hc : s.calls c = some pc) (hn : pc.effect = none)
    (hs : ∀ d, s'.calls d = if d = c then some pc' else s.calls d) (hpc' : pc'.effect = some r)
    (hl : ∀ x, s'.loaded x = if x = handle then o else s.loaded x)
    (ho : ∀ g, o = some g → s.parser g = none ∧ handle = numbered g)
    (hp : ∀ g, s.parser g ≠ none → s'.parser g = s.parser g)
    (hex : ∀ g, s'.parser g ≠ none → s.parser g ≠ none ∨ o = some g)
    (happly : ∀ op t, pc.Serves host op → Tabled s t →
      Hides host t handle op ∧ (apply host t op).1 = r ∧
        (apply host t op).2.nextID = numbered s'.instances.last ∧
        ∀ x, (apply host t op).2.live x = if x = handle then o.bind s'.parser else t.live x) :
    Linked host s' h := by
  obtain ⟨L, t, off, hL, hP, hT, hD⟩ := hK
  obtain ⟨op, hcall, -, hyet⟩ := hL.called c pc hc
  obtain ⟨hH, hr, hnext, hlive⟩ := happly op t (hyet hn).1 hT
  have hret : ∀ r, .ret c r ∉ h := hL.not_returned hc (by rintro r rfl; cases hn)
  have hprec : ∀ d, ¬ Precedes h c d := fun d => not_precedes_of_not_returned hret
  have hloaded : ∀ x g, s.loaded x = some g → x = numbered g ∧ s.parser g ≠ none := fun x g hx =>
    (hG.loaded x g hx).imp_right fun hg => by simpa [State.parser] using hg
  have hP' := hP.concat (e := ⟨c, op, r⟩) hr
  have hL' := hL.effect_last hc hn hcall hs hpc' hP'
  refine ⟨L ++ [⟨c, op, r⟩], _, _, hL', hP', ⟨hnext, fun x => ?_⟩,
    hD.detach hP hT hloaded hH hprec (hyet hn).2 hl (fun g hg => (ho g hg).1) hp ?_
      (seeks_of_effect hs hpc')⟩
  · rw [hlive, hl]
    split_ifs
    · rfl
    · rw [hT.live]
      cases hx : s.loaded x with
      | none => rfl
      | some g => exact (hp g (hloaded x g hx).2).symm
  · exact fun g hg => (hex g hg).imp_right fun hg => ⟨hg, (ho g hg).2⟩

/-- A call has its effect on a parser, which may no longer be in the map. -/
theorem parse (hK : Linked host s h) (hG : Guarded s) {g : ℕ} {src : String} {p : σ}
    (hc : s.calls c = some (.parsed g src p))
    (hs : ∀ d, s'.calls d = if d = c then some (.muUnlock g (host.answer (host.safeParse p src).1))
      else s.calls d)
    (hlast : s'.instances.last = s.instances.last) (hl : ∀ handle, s'.loaded handle = s.loaded handle)
    (hp : ∀ j, s'.parser j = if j = g then some (host.safeParse p src).2 else s.parser j) :
    Linked host s' h := by
  have hpg : s.parser g = some p := hG.parser_of_parsed hc
  have happly (t : Table σ) (ht : t.live (numbered g) = some p) :
      apply host t (.parse (numbered g) src) = (host.answer (host.safeParse p src).1,
        t.set (numbered g) (some (host.safeParse p src).2)) := by
    simp [apply, ht]
  obtain ⟨L, t, off, hL, hP, hT, hD⟩ := hK
  cases hx : off g with
  | none =>
    -- The instance is in the map.
    have hg := hD.attached g (by simp [hpg]) hx
    refine concat ⟨L, t, off, hL, hP, hT, hD⟩ hc rfl hs rfl hlast hl ?_ ?_ ?_
    · intro j hj
      rw [hp] at hj
      split_ifs at hj with hjg
      · simp [hjg, hpg]
      · exact hj
    · intro j hj
      rw [hp, if_neg]
      rintro rfl
      exact hj _ hg
    · rintro op t rfl hT
      have ht : t.live (numbered g) = some p := by rw [hT.live, hg, Option.bind_some, hpg]
      rw [happly t ht]
      refine ⟨rfl, rfl, fun handle => ?_⟩
      rw [Table.live_set]
      split_ifs with hh
      · rw [hh, hg, Option.bind_some, hp, if_pos rfl]
      · rw [hT.live]
        cases hj : s.loaded handle with
        | none => rfl
        | some j =>
          rw [Option.bind_some, Option.bind_some, hp, if_neg]
          rintro rfl
          exact hh (hG.loaded handle j hj).1
  | some x =>
    -- An entry has taken it out, and the parse takes effect right before that one.
    obtain ⟨t₁, q, hq, ht₁, hH, L₁, L₂, rfl, hP₁, hQ⟩ := hD.detached g x hx
    obtain rfl : p = q := Option.some.inj (hpg.symm.trans hq)
    obtain ⟨op, hcall, -, hyet⟩ := hL.called c _ hc
    obtain ⟨rfl, hnew⟩ := hyet rfl
    have hret := hL.not_returned hc (by simp)
    have hout := happly t₁ ht₁
    obtain ⟨t₂, h₁, h₂⟩ := plays_append.1 hP
    obtain rfl := h₁.unique hP₁
    have hP' := hP₁.insert (e := ⟨c, _, _⟩) (congrArg Prod.fst hout) (by rw [hout]; exact hH _) h₂
    have horder : ∀ y ∈ x :: L₂, ∀ d, s.At (Pc.Seeks g) d → ¬ Precedes h y.call d :=
      fun y hy d hd hyd => hQ y hy ⟨d, hd, hyd⟩
    refine ⟨_, t, off, hL.effect hc rfl hcall hs rfl ⟨t, hP'⟩ fun y hy =>
      horder y hy c ⟨_, hc, rfl⟩, hP', ⟨?_, fun handle => ?_⟩,
      hD.insert rfl hx hP₁ hH horder hout (fun d => not_precedes_of_not_returned hret) hl hp
        (seeks_of_effect hs rfl)⟩
    · rw [hlast, hT.nextID]
    · rw [hT.live, hl]
      cases hj : s.loaded handle with
      | none => rfl
      | some j =>
        rw [Option.bind_some, Option.bind_some, hp, if_neg]
        rintro rfl
        exact hD.absent j x handle hx hj

end Linked

section Parser

variable {g j : ℕ} {f : Instance ι σ → Instance ι σ} {p : σ}

omit [DecidableEq ι] in
theorem parser_setInstance : (s.setInstance g f).parser j =
    if j = g then ((s.instances.cell g).map f).map Instance.parse else s.parser j := by
  rw [State.parser, State.cell_setInstance]
  split_ifs <;> rfl

omit [DecidableEq ι] in
/-- The lock of an instance is no part of its parser. -/
theorem parser_setInstance_of_same (hf : ∀ i, (f i).parse = i.parse) :
    (s.setInstance g f).parser j = s.parser j := by
  rw [parser_setInstance]
  split_ifs with h
  · subst h
    rw [Option.map_map, State.parser]
    congr 1
    exact funext hf
  · rfl

omit [DecidableEq ι] in
theorem parser_alloc : (s.alloc p).1.parser j =
    if j = s.instances.last + 1 then some p else s.parser j := by
  rw [State.parser, State.cell_alloc]
  split_ifs <;> rfl

end Parser

namespace Linked

/-- A load stores its parser. -/
theorem store (hK : Linked host s h) (hG : Guarded s) {p : σ} {id : ℤ}
    (hc : s.calls c = some (.store p id)) :
    Linked host (((s.alloc p).1.setLoaded id (some (s.instances.last + 1))).goto c
      (.unlock (.handle id))) h := by
  have hid := hG.store_id hc
  have hnext : s.parser (s.instances.last + 1) = none := by
    rw [State.parser, s.instances.cell_next, Option.map_none]
  have hparser (j : ℕ) : (((s.alloc p).1.setLoaded id (some (s.instances.last + 1))).goto c
      (.unlock (.handle id))).parser j = if j = s.instances.last + 1 then some p else s.parser j :=
    parser_alloc
  refine hK.detach (o := some (s.instances.last + 1)) hG hc rfl (fun d => State.calls_goto) rfl
    (fun x => State.loaded_setLoaded) ?_ ?_ ?_ ?_
  · rintro g hg
    obtain rfl := Option.some.inj hg
    exact ⟨hnext, hid⟩
  · intro g hg
    rw [hparser, if_neg]
    rintro rfl
    exact hg hnext
  · intro g hg
    rw [hparser] at hg
    split_ifs at hg with hgn
    · exact Or.inr (congrArg some hgn.symm)
    · exact Or.inl hg
  · rintro op t ⟨optsJSON, rfl, hb⟩ hT
    have ht : id = int64 (t.nextID + 1) := by rw [hT.nextID, int64_numbered, hid]
    have happly : apply host t (.load optsJSON) =
        (.handle id, { t.set id (some p) with nextID := id }) := by
      simp only [apply, hb, ht]
    refine ⟨ht ▸ hides_load hb, congrArg Prod.fst happly, ?_, fun x => ?_⟩
    · rw [happly]
      exact hid
    · rw [happly, Option.bind_some, hparser, if_pos rfl]
      exact Table.live_set

/-- A free takes a parser out. -/
theorem delete (hK : Linked host s h) (hG : Guarded s) {handle : ℤ}
    (hc : s.calls c = some (.delete handle)) :
    Linked host ((s.setLoaded handle none).goto c (.unlock .freed)) h := by
  refine hK.detach (o := none) hG hc rfl (fun d => State.calls_goto) rfl
    (fun x => State.loaded_setLoaded) (by simp) (fun _ _ => rfl) (fun _ => Or.inl) ?_
  rintro op t rfl hT
  exact ⟨hides_free, rfl, hT.nextID, fun x => Table.live_set⟩

/-- A parse finds its parser, or that there is none. -/
theorem lookup (hK : Linked host s h) (hG : Guarded s) {handle : ℤ} {src : String}
    (hc : s.calls c = some (.lookup handle src)) :
    Linked host (s.goto c (.runlock (s.loaded handle) src)) h := by
  cases hg : s.loaded handle with
  | none =>
    refine hK.concat hc rfl (fun d => State.calls_goto) rfl rfl (fun _ => rfl) (fun _ hg => hg)
      (fun _ _ => rfl) ?_
    rintro op t rfl hT
    have ht : t.live handle = none := by rw [hT.live, hg, Option.bind_none]
    have happly : apply host t (.parse handle src) = (noParser, t) := by simp only [apply, ht]
    rw [happly]
    exact ⟨rfl, rfl, hT.live⟩
  | some g =>
    refine hK.silent hc (fun d => State.calls_goto) (by simp) rfl ?_ rfl (fun _ => rfl)
      (fun _ => rfl) fun j hj => Or.inr ⟨handle, hg.trans hj⟩
    rintro op rfl
    exact congrArg (Call.parse · src) (hG.loaded handle g hg).1

/-- What a step of a call leads to is what a linearization leads to. -/
theorem advance (hK : Linked host s h) (hG : Guarded s) (ha : Advances host s c s' none) :
    Linked host s' h := by
  cases ha with
  | @refused optsJSON r hc hb =>
    refine hK.concat hc rfl (fun d => State.calls_goto) rfl rfl (fun _ => rfl) (fun _ hg => hg)
      (fun _ _ => rfl) ?_
    rintro op t rfl hT
    have happly : apply host t (.load optsJSON) = (r, t) := by simp only [apply, hb]
    rw [happly]
    exact ⟨rfl, rfl, hT.live⟩
  | built hc hb =>
    refine hK.silent hc (fun d => State.calls_goto) (by simp) rfl ?_ rfl (fun _ => rfl) (fun _ => rfl)
      fun g hg => hg.elim
    rintro op rfl
    exact ⟨_, rfl, hb⟩
  | lock hc | inserts hc | deletes hc | readID hc | writeID hc | fetchID hc | unlock hc | rlock hc
  | parse hc =>
    exact hK.silent hc (fun d => State.calls_goto) (by simp) rfl (fun op => id) rfl (fun _ => rfl)
      (fun _ => rfl) fun g => Or.inl
  | found hc =>
    exact hK.silent hc (fun d => State.calls_goto) (by simp) rfl (fun op => id) rfl (fun _ => rfl)
      (fun _ => rfl) fun g hg => Or.inl (congrArg some hg)
  | missing hc =>
    exact hK.silent hc (fun d => State.calls_goto) (by simp) rfl (fun op => id) rfl (fun _ => rfl)
      (fun _ => rfl) fun g hg => hg.elim
  | muLock hc | muUnlock hc =>
    exact hK.silent hc (fun d => State.calls_goto) (by simp) rfl (fun op => id) rfl (fun _ => rfl)
      (fun _ => parser_setInstance_of_same fun _ => rfl) fun g => Or.inl
  | @parsed g src p hc =>
    refine hK.parse hG hc (fun d => State.calls_goto) rfl (fun _ => rfl) fun j => ?_
    obtain ⟨i, hi⟩ := Option.ne_none_iff_exists'.1 (hG.used c g ⟨_, hc, rfl⟩)
    exact parser_setInstance.trans (by rw [hi]; rfl)
  | lookup hc => exact hK.lookup hG hc
  | delete hc => exact hK.delete hG hc
  | store hc => exact hK.store hG hc

end Linked

theorem Reaches.linked (hs : Reaches host s h) : Linked host s h := by
  induction hs with
  | init => exact linked_init
  | invoke c op _ hc ih => exact ih.invoke hc op
  | step c o hs ha ih =>
    cases o with
    | none =>
      rw [Option.map_none, Option.toList_none, List.append_nil]
      exact ih.advance hs.guarded (advances ha)
    | some r =>
      cases advances ha with
      | reply hc => exact ih.reply hc

/-- Every history of the registry has a linearization. -/
theorem registry_linearizable (hs : Reaches host s h) :
    ∃ L, Linearizes (apply host) (Table.empty σ) h L := by
  obtain ⟨L, -, -, hL, -⟩ := hs.linked
  exact ⟨L, hL.linearizes⟩

end Runs

/-- A parse that finds its parser before another call frees it, and is done after that. -/
def lateParse : List (ℕ × Option Call) :=
  (1, some (.load "")) :: List.replicate 9 (1, none) ++ (2, some (.parse 1 "1+1")) ::
    List.replicate 3 (2, none) ++ (3, some (.free 1)) :: List.replicate 5 (3, none) ++
    (4, some (.parse 1 "2")) :: List.replicate 4 (4, none) ++ List.replicate 5 (2, none)

theorem registry_linearizable_lateParse :
    ∃ L, Linearizes (apply counting) (Table.empty ℕ) [.call 1 (.load ""), .ret 1 (.handle 1),
      .call 2 (.parse 1 "1+1"), .call 3 (.free 1), .ret 3 .freed, .call 4 (.parse 1 "2"),
      .ret 4 noParser, .ret 2 (.acceptDoc ("1+1", 0))] L := by
  obtain ⟨s, h, hs, rfl⟩ : ∃ s h, Reaches counting s h ∧ h = _ :=
    Reaches.of_follow (l := lateParse) (f := Prod.snd) rfl
  exact registry_linearizable hs

end TabnasExpr.Clib
