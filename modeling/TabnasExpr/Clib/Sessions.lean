import TabnasExpr.Clib.Linearizable

/-!
# What a handle stands for

From a linearization one reads off what a caller of the library can rely on: a parse is answered by the
parser that the load of its handle built, which only parses under this handle have used
(`parse_served`), and a handle that was given and not freed has a parser (`handle_usable`).
-/

namespace TabnasExpr.Clib

open Linear

variable {ι σ P V D : Type*} {host : Host σ P V D} {L : List (Entry ι Call (Reply P D))}
  {t t' : Table σ} {handle : ℤ} {src : String} {r : Reply P D} {e e₀ : Entry ι Call (Reply P D)}
  {p : σ}

/-! ### One call at a time -/

/-- The parser after it has parsed the sources, one after another. -/
def Host.after (host : Host σ P V D) (p : σ) (srcs : List String) : σ :=
  srcs.foldl (fun p src => (host.safeParse p src).2) p

/-- What is under a handle has been built by a load that was given this handle, and has parsed what was
parsed under it. -/
def Built (host : Host σ P V D) (L : List (Entry ι Call (Reply P D))) (handle : ℤ) (p : σ) : Prop :=
  ∃ c optsJSON p₀ srcs, ⟨c, .load optsJSON, .handle handle⟩ ∈ L ∧ host.build optsJSON = .ok p₀ ∧
    (∀ src ∈ srcs, ∃ e ∈ L, e.op = .parse handle src) ∧ p = host.after p₀ srcs

theorem Built.concat (h : Built host L handle p) : Built host (L ++ [e]) handle p := by
  obtain ⟨c, optsJSON, p₀, srcs, hm, hb, hs, hp⟩ := h
  refine ⟨c, optsJSON, p₀, srcs, List.mem_append_left _ hm, hb, fun src hsrc => ?_, hp⟩
  exact (hs src hsrc).imp fun e he => ⟨List.mem_append_left _ he.1, he.2⟩

theorem noParser_ne_answer (out : Except (Error P) V) : host.answer out ≠ noParser := by
  unfold Host.answer noParser
  split
  · simp
  · split_ifs <;> simp

theorem answer_ne_handle (out : Except (Error P) V) : host.answer out ≠ .handle handle := by
  unfold Host.answer
  split
  · simp
  · split_ifs <;> simp

theorem build_ne_handle {optsJSON : String} : host.build optsJSON ≠ .error (.handle handle) := by
  unfold Host.build
  cases host.safeNew optsJSON <;> split_ifs <;> cases host.members optsJSON with
  | none => simp
  | some n => cases n <;> simp

/-- A handle is given to a parser. -/
theorem live_of_handle {op : Call} (h : (apply host t op).1 = .handle handle) :
    (apply host t op).2.live handle ≠ none := by
  cases op with
  | load optsJSON =>
    cases hb : host.build optsJSON with
    | error r =>
      simp only [apply, hb] at h
      exact (build_ne_handle (h ▸ hb)).elim
    | ok p =>
      simp only [apply, hb, Reply.handle.injEq] at h ⊢
      rw [h]
      exact (Table.live_set.trans (if_pos rfl)).symm ▸ Option.some_ne_none p
  | parse handle' src =>
    cases hl : t.live handle' with
    | none =>
      simp only [apply, hl] at h
      cases h
    | some p =>
      simp only [apply, hl] at h
      exact (answer_ne_handle _ h).elim
  | free => cases h

/-- One more call keeps what is under the handles as it should be. -/
theorem built_apply (h : ∀ handle p, t.live handle = some p → Built host L handle p)
    (he : (apply host t e.op).1 = e.ret) (handle : ℤ) (p : σ)
    (hp : (apply host t e.op).2.live handle = some p) : Built host (L ++ [e]) handle p := by
  obtain ⟨c, op, r⟩ := e
  cases op with
  | load optsJSON =>
    cases hb : host.build optsJSON with
    | error r₀ =>
      simp only [apply, hb] at hp
      exact (h handle p hp).concat
    | ok p₀ =>
      simp only [apply, hb] at he hp
      have hp : (if handle = int64 (t.nextID + 1) then some p₀ else t.live handle) = some p :=
        Table.live_set.symm.trans hp
      split_ifs at hp with hh
      · obtain rfl := Option.some.inj hp
        refine ⟨c, optsJSON, p₀, [], ?_, hb, by simp, rfl⟩
        simp [← he, hh]
      · exact (h handle p hp).concat
  | parse handle' src =>
    cases hl : t.live handle' with
    | none =>
      simp only [apply, hl] at hp
      exact (h handle p hp).concat
    | some q =>
      simp only [apply, hl, Table.live_set] at hp
      split_ifs at hp with hh
      · obtain rfl := Option.some.inj hp
        obtain ⟨c₀, optsJSON, p₀, srcs, hm, hb, hs, rfl⟩ := h handle' q hl
        refine ⟨c₀, optsJSON, p₀, srcs ++ [src], ?_, hb, ?_, ?_⟩
        · simp [hh, hm]
        · intro src' hsrc
          rcases List.mem_append.1 hsrc with hsrc | hsrc
          · exact (hs src' hsrc).imp fun e he => ⟨List.mem_append_left _ he.1, hh ▸ he.2⟩
          · obtain rfl := List.mem_singleton.1 hsrc
            exact ⟨_, List.mem_append_right _ (List.mem_singleton_self _), by rw [hh]⟩
        · simp [Host.after]
      · exact (h handle p hp).concat
  | free handle' =>
    simp only [apply, Table.live_set] at hp
    split_ifs at hp
    exact (h handle p hp).concat

theorem built_of_plays (h : Plays (apply host) (Table.empty σ) L t) (handle : ℤ) (p : σ)
    (hp : t.live handle = some p) : Built host L handle p := by
  induction L using List.reverseRecOn generalizing t handle p with
  | nil =>
    obtain rfl := h
    cases hp
  | append_singleton L e ih =>
    obtain ⟨t₁, h₁, he, rfl⟩ := plays_append.1 h
    exact built_apply (fun handle p => ih h₁ handle p) he handle p hp

/-- Until it is freed, a handle has a parser. -/
theorem live_of_plays (h : Plays (apply host) t L t') (hf : ∀ e ∈ L, e.op ≠ .free handle)
    (hl : t.live handle ≠ none) : t'.live handle ≠ none := by
  induction L generalizing t with
  | nil =>
    obtain rfl := h
    exact hl
  | cons e L ih =>
    refine ih h.2 (fun e he => hf e (List.mem_cons_of_mem _ he)) ?_
    have he := hf e (List.mem_cons_self ..)
    generalize e.op = op at he
    cases op with
    | load optsJSON =>
      cases hb : host.build optsJSON with
      | error => simpa only [apply, hb] using hl
      | ok p =>
        simp only [apply, hb]
        exact fun hn => hl (by
          have hn : (if handle = int64 (t.nextID + 1) then some p else t.live handle) = none :=
            Table.live_set.symm.trans hn
          split_ifs at hn
          exact hn)
    | parse handle' src =>
      cases hl' : t.live handle' with
      | none => simpa only [apply, hl'] using hl
      | some q =>
        simp only [apply, hl', Table.live_set]
        split_ifs
        · exact Option.some_ne_none _
        · exact hl
    | free handle' =>
      have hh : handle ≠ handle' := fun hh => he (hh ▸ rfl)
      simpa only [apply, Table.live_set, if_neg hh] using hl

/-! ### Runs -/

variable [DecidableEq ι] {s : State ι σ (Reply P D)} {h : List (Event ι Call (Reply P D))} {c c₀ : ι}

theorem Reaches.call_unique (hs : Reaches host s h) {op op' : Call} (hc : .call c op ∈ h)
    (hc' : .call c op' ∈ h) : op = op' := by
  induction hs with
  | init => cases hc
  | @invoke s h d op₀ hs hd ih =>
    have hnew : ∀ op, .call d op ∉ h := fun op ho => by
      obtain ⟨L, t, off, hL, -⟩ := hs.linked
      exact hL.known d op ho hd
    simp only [List.mem_append, List.mem_singleton, Event.call.injEq] at hc hc'
    rcases hc with hc | ⟨rfl, rfl⟩ <;> rcases hc' with hc' | ⟨hcd, rfl⟩
    · exact ih hc hc'
    · exact (hnew op (hcd ▸ hc)).elim
    · exact (hnew op' hc').elim
    · rfl
  | step d r _ _ ih =>
    cases r <;> exact ih (by simpa using hc) (by simpa using hc')

theorem Reaches.entry (hs : Reaches host s h) (hL : Linearizes (apply host) (Table.empty σ) h L)
    {op : Call} (hc : .call c op ∈ h) (hr : .ret c r ∈ h) : ⟨c, op, r⟩ ∈ L := by
  obtain ⟨op', hm⟩ := hL.returned c r hr
  rwa [hs.call_unique hc (hL.called _ hm)]

/-- A parse is answered by a parser that the load of its handle built, and that has parsed nothing but
sources of other parses under the handle; otherwise it is told that there is no parser. -/
theorem parse_served (hs : Reaches host s h) (hc : .call c (.parse handle src) ∈ h)
    (hr : .ret c r ∈ h) : r = noParser ∨ ∃ c₀ optsJSON p srcs, .call c₀ (.load optsJSON) ∈ h ∧
      (∀ r₀, .ret c₀ r₀ ∈ h → r₀ = .handle handle) ∧ host.build optsJSON = .ok p ∧
      (∀ src' ∈ srcs, ∃ c', c' ≠ c ∧ .call c' (.parse handle src') ∈ h) ∧
      r = host.answer (host.safeParse (host.after p srcs) src).1 := by
  obtain ⟨L, -, -, hK, -⟩ := hs.linked
  have hL := hK.linearizes
  obtain ⟨L₁, L₂, hsplit⟩ := List.append_of_mem (hs.entry hL hc hr)
  obtain ⟨t, hP⟩ := hL.plays
  rw [hsplit] at hP
  obtain ⟨t₁, h₁, he, -⟩ := plays_append.1 hP
  have hnodup := hL.nodup
  cases hl : t₁.live handle with
  | none =>
    left
    simpa only [apply, hl] using he.symm
  | some p =>
    right
    obtain ⟨c₀, optsJSON, p₀, srcs, hm, hb, hsrcs, rfl⟩ := built_of_plays h₁ handle p hl
    have hm₀ : (⟨c₀, .load optsJSON, .handle handle⟩ : Entry ι Call (Reply P D)) ∈ L := by
      simp [hsplit, hm]
    refine ⟨c₀, optsJSON, p₀, srcs, hL.called _ hm₀, fun r₀ hr₀ => ?_, hb, fun src' hsrc => ?_, ?_⟩
    · have hm' := hs.entry hL (hL.called _ hm₀) hr₀
      have he' := List.inj_on_of_nodup_map hnodup hm' hm₀ rfl
      exact congrArg Entry.ret he'
    · obtain ⟨e, hmem, hop⟩ := hsrcs src' hsrc
      have hmL : e ∈ L := by simp [hsplit, hmem]
      refine ⟨e.call, ?_, hop ▸ hL.called e hmL⟩
      rw [hsplit, List.map_append, List.map_cons] at hnodup
      exact (List.nodup_append.1 hnodup).2.2 e.call (List.mem_map_of_mem hmem) c (List.mem_cons_self ..)
    · simpa only [apply, hl] using he.symm

/-- Two parses under one handle, one after the other. -/
def twoParses : List (ℕ × Option Call) :=
  (1, some (.load "")) :: List.replicate 9 (1, none) ++ (2, some (.parse 1 "1+1")) ::
    List.replicate 8 (2, none) ++ (3, some (.parse 1 "2")) :: List.replicate 8 (3, none)

/-- What they come to with parsers that count their parses. -/
def twoReplies : List (Event ℕ Call (Reply Unit (String × ℕ))) :=
  [.call 1 (.load ""), .ret 1 (.handle 1), .call 2 (.parse 1 "1+1"), .ret 2 (.acceptDoc ("1+1", 0)),
    .call 3 (.parse 1 "2"), .ret 3 (.acceptDoc ("2", 1))]

theorem reaches_twoReplies : ∃ s, Reaches counting s twoReplies := by
  obtain ⟨s, h, hs, rfl⟩ : ∃ s h, Reaches counting s h ∧ h = twoReplies :=
    Reaches.of_follow (l := twoParses) (f := Prod.snd) rfl
  exact ⟨s, hs⟩

theorem parse_served_twoParses : (.acceptDoc ("2", 1) : Reply Unit (String × ℕ)) = noParser ∨
    ∃ c₀ optsJSON p srcs, .call c₀ (.load optsJSON) ∈ twoReplies ∧
      (∀ r₀, .ret c₀ r₀ ∈ twoReplies → r₀ = .handle 1) ∧ counting.build optsJSON = .ok p ∧
      (∀ src' ∈ srcs, ∃ c', c' ≠ 3 ∧ .call c' (.parse 1 src') ∈ twoReplies) ∧
      .acceptDoc ("2", 1) = counting.answer (counting.safeParse (counting.after p srcs) "2").1 := by
  obtain ⟨s, hs⟩ := reaches_twoReplies
  exact parse_served hs (by simp [twoReplies]) (by simp [twoReplies])

/-- A parse under a handle that was given before it was made, and that no call frees, has a parser. -/
theorem handle_usable (hs : Reaches host s h)
    (hgiven : [.ret c₀ (.handle handle), .call c (.parse handle src)].Sublist h) (hr : .ret c r ∈ h)
    (hfree : ∀ c', .call c' (.free handle) ∉ h) : r ≠ noParser := by
  have hret : .ret c₀ (.handle handle) ∈ h := hgiven.subset (by simp)
  have hcall : .call c (.parse handle src) ∈ h := hgiven.subset (by simp)
  obtain ⟨L, -, -, hK, -⟩ := hs.linked
  have hL := hK.linearizes
  obtain ⟨op₀, hm₀⟩ := hL.returned c₀ _ hret
  obtain ⟨L₁, L₂, rfl⟩ := List.append_of_mem (hs.entry hL hcall hr)
  have hnofree : ∀ e ∈ L₁ ++ ⟨c, .parse handle src, r⟩ :: L₂, e.op ≠ .free handle :=
    fun e he hop => hfree e.call (hop ▸ hL.called e he)
  rcases List.mem_append.1 hm₀ with hm₀ | hm₀
  · -- The load comes first in the linearization, and its parser is there until the parse.
    obtain ⟨K₁, K₂, rfl⟩ := List.append_of_mem hm₀
    obtain ⟨t, hP⟩ := hL.plays
    obtain ⟨t₁, h₁, he, -⟩ := plays_append.1 hP
    obtain ⟨t₀, -, he₀, h₂⟩ := plays_append.1 h₁
    have hl : t₁.live handle ≠ none :=
      live_of_plays h₂ (fun e he => hnofree e (by simp [he])) (live_of_handle he₀)
    obtain ⟨p, hp⟩ := Option.ne_none_iff_exists'.1 hl
    simp only [apply, hp] at he
    exact he ▸ noParser_ne_answer _
  · rcases List.mem_cons.1 hm₀ with he | hm₀
    · have hr : r = .handle handle := (congrArg Entry.ret he).symm
      simp [hr, noParser]
    · have horder := (List.pairwise_cons.1 (List.pairwise_append.1 hL.order).2.1).1 _ hm₀
      exact absurd ⟨_, _, hgiven⟩ horder

theorem handle_usable_twoParses : (.acceptDoc ("2", 1) : Reply Unit (String × ℕ)) ≠ noParser := by
  obtain ⟨s, hs⟩ := reaches_twoReplies
  have hgiven : [.ret 1 (.handle 1), .call 3 (.parse 1 "2")].Sublist twoReplies := by simp [twoReplies]
  exact handle_usable hs hgiven (by simp [twoReplies]) (by simp [twoReplies])

end TabnasExpr.Clib
