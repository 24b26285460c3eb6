import TinyStm.Protocol.Invariant

/-!
# The steps of the protocol

Each way in which an atomic action changes the view preserves the invariant and is a step that the
guarantee allows. There is one lemma for each kind of step: a lock is acquired or released, a word
is stored, the clock is incremented, a commit is decided, an attempt changes its phase or its level
of irrevocability. Each says exactly what the thread has to know before it. The proofs about the
functions of the library use these lemmas and never the definition of the invariant.
-/

namespace TinyStm

namespace View

variable {Tid Addr Lock : Type} {w : ℕ}

section congr
variable {v v' : View Tid Addr Lock w} {ℓ : Lock} {S : Premises Addr Lock w} {p : Tid}

theorem lastWord_congr (hl : v'.locks ℓ = v.locks ℓ)
    (hs : ∀ q, v.Holds q ℓ → v'.saved ℓ = v.saved ℓ) : v'.lastWord ℓ = v.lastWord ℓ := by
  cases h : v.locks ℓ with
  | free l => rw [lastWord_of_free h, lastWord_of_free (hl.trans h)]
  | owned q i => rw [lastWord_of_owned h, lastWord_of_owned (hl.trans h), hs q ⟨i, h⟩]

theorem lastTs_congr (hl : v'.locks ℓ = v.locks ℓ)
    (hs : ∀ q, v.Holds q ℓ → v'.saved ℓ = v.saved ℓ) : v'.lastTs ℓ = v.lastTs ℓ := by
  rw [lastTs, lastTs, lastWord_congr hl hs]

theorem due_congr (hl : v'.locks ℓ = v.locks ℓ) (hs : ∀ q, v.Holds q ℓ → v'.saved ℓ = v.saved ℓ)
    (hp : ∀ q, v.Holds q ℓ → ∀ t, v'.phase q = .installing t ↔ v.phase q = .installing t) :
    v'.due ℓ = v.due ℓ := by
  cases h : v.locks ℓ with
  | free l => rw [due_of_free h, due_of_free (hl.trans h)]
  | owned q i =>
    have hp := hp q ⟨i, h⟩
    by_cases hq : ∃ t, v.phase q = .installing t
    · obtain ⟨t, ht⟩ := hq
      rw [due_of_installing h ht, due_of_installing (hl.trans h) ((hp t).2 ht)]
    · rw [due_of_owned h fun t ht => hq ⟨t, ht⟩,
        due_of_owned (hl.trans h) fun t ht => hq ⟨t, (hp t).1 ht⟩, lastTs_congr hl hs]

theorem stamp_congr (hl : v'.locks ℓ = v.locks ℓ)
    (hs : ∀ q, v.Holds q ℓ → v'.saved ℓ = v.saved ℓ)
    (ha : ∀ q, v.Holds q ℓ → v'.attr q = v.attr q) : v'.stamp S ℓ = v.stamp S ℓ := by
  cases h : v.locks ℓ with
  | free l => rw [stamp_of_free h, stamp_of_free (hl.trans h)]
  | owned q i => rw [stamp_of_owned h, stamp_of_owned (hl.trans h), hs q ⟨i, h⟩, ha q ⟨i, h⟩]

theorem quiet_congr (hl : v'.locks ℓ = v.locks ℓ)
    (ha : ∀ q, v.Holds q ℓ → v'.attr q = v.attr q)
    (hp : ∀ q, v.Holds q ℓ → ∀ t, v'.phase q = .installing t ↔ v.phase q = .installing t) :
    v'.Quiet S ℓ ↔ v.Quiet S ℓ := by
  cases h : v.locks ℓ with
  | free l => exact iff_of_true (quiet_of_free (hl.trans h)) (quiet_of_free h)
  | owned q i =>
    rw [quiet_of_owned ⟨i, hl.trans h⟩, quiet_of_owned ⟨i, h⟩]
    simp only [hp q ⟨i, h⟩, ha q ⟨i, h⟩, ne_eq]

theorem holds_congr (hl : v'.locks ℓ = v.locks ℓ) : v'.Holds p ℓ ↔ v.Holds p ℓ := by
  rw [Holds, Holds, hl]

end congr

variable [DecidableEq Tid] [DecidableEq Addr] {S : Premises Addr Lock w}
  {v : View Tid Addr Lock w} {p q : Tid} {ℓ : Lock} {l i t n : ℕ} {a : Addr}

/-- The phase of a thread that owns no lock is set back, or its check passes or it aborts. -/
theorem Inv.setPhase (h : Inv S v) {ph : Phase} (hph : ph = .running ∨ ph = .checked ∨ ph = .aborting)
    (hi : (∀ t, v.phase p ≠ .installing t) ∧ (v.phase p = .aborting → ph = .aborting) ∨
      ∀ ℓ, ¬ v.Holds p ℓ)
    (hpass : ph.Passed → (v.phase p).Passed ∨ v.token = 0 ∨ 2 ≤ v.irr p) :
    Inv S { v with phase := Function.update v.phase p ph } ∧
      Guar S p v { v with phase := Function.update v.phase p ph } := by
  set v' : View Tid Addr Lock w := { v with phase := Function.update v.phase p ph } with hv'
  have hself : v'.phase p = ph := by simp [hv']
  have hne : ∀ q, q ≠ p → v'.phase q = v.phase q := fun q hq => by simp [hv', hq]
  have hticket : ∀ q t, v'.phase q = .ticket t → v.phase q = .ticket t := by
    intro q t hq
    by_cases hqp : q = p
    · subst hqp
      rw [hself] at hq
      rcases hph with rfl | rfl | rfl <;> cases hq
    · rwa [hne q hqp] at hq
  have hinst : ∀ q ℓ, v.Holds q ℓ → ∀ t, v'.phase q = .installing t ↔ v.phase q = .installing t := by
    intro q ℓ hq t
    by_cases hqp : q = p
    · subst hqp
      have h1 : v'.phase q ≠ .installing t := by
        rw [hself]; rcases hph with rfl | rfl | rfl <;> nofun
      rcases hi with hi | hi
      · exact iff_of_false h1 (hi.1 t)
      · exact (hi ℓ hq).elim
    · rw [hne q hqp]
  have hdue : ∀ ℓ, v'.due ℓ = v.due ℓ := fun ℓ =>
    due_congr rfl (fun _ _ => rfl) fun q hq => hinst q ℓ hq
  have hquiet : ∀ ℓ, v'.Quiet S ℓ ↔ v.Quiet S ℓ := fun ℓ =>
    quiet_congr rfl (fun _ _ => rfl) fun q hq => hinst q ℓ hq
  refine ⟨
      { h with
        ticket := fun q t hq => h.ticket q t (hticket q t hq)
        ticket_inj := fun q r t hq hr => h.ticket_inj q r t (hticket q t hq) (hticket r t hr)
        settled := fun a n hn => h.settled a n (by rwa [hdue] at hn)
        due_le := fun ℓ => by rw [hdue]; exact h.due_le ℓ
        late := ?_
        apart := fun q t hq => h.apart q t (hticket q t hq)
        mem := fun a ha => h.mem a ((hquiet _).1 ha)
        decided := ?_ },
      ?_⟩
  · exact fun ℓ q i t hl hq => h.late ℓ q i t hl (hq.imp (hticket q t) (hinst q ℓ ⟨i, hl⟩ t).1)
  · intro q t hq
    have hqp : q ≠ p := by
      rintro rfl
      rw [hself] at hq
      rcases hph with rfl | rfl | rfl <;> cases hq
    exact h.decided q t (hne q hqp ▸ hq)
  · exact {
      clock := le_refl _
      mem := fun _ => .inl rfl
      still := fun _ _ => rfl
      lastTs := fun _ => le_refl _
      due := fun ℓ => (hdue ℓ).ge
      cur := fun _ => .inl rfl
      memAt := fun _ _ _ => .inl rfl
      locks := fun _ _ _ _ => Iff.rfl
      saved := fun _ _ _ _ => rfl
      acquire := fun _ h => .inl h
      draw := fun t ht => .inl (hticket p t ht)
      stamp := fun _ => le_refl _
      pass := fun h' => hpass (by rwa [hself] at h')
      phase := hne
      irr := fun _ _ => rfl
      attr := fun _ _ => rfl
      turn := fun _ => .keep rfl fun _ _ => rfl
      commits := fun _ h => h
      decide := fun t ht => by
        rw [hself] at ht
        rcases hph with rfl | rfl | rfl <;> cases ht
      abort := fun ha => hi.imp (fun hi => hself.trans (hi.2 ha)) id }

omit [DecidableEq Tid] in
/-- The clock is incremented. -/
theorem Inv.bump (h : Inv S v) :
    Inv S { v with clock := v.clock + 1 } ∧ Guar S p v { v with clock := v.clock + 1 } := by
  set v' : View Tid Addr Lock w := { v with clock := v.clock + 1 } with hv'
  have hcur : v'.cur S = v.cur S := h.memAt_of_clock_le (Nat.le_succ _)
  refine ⟨
      { h with
        ts_le := fun c hc => (h.ts_le c hc).trans (Nat.le_succ _)
        ticket := fun q t hq => ⟨(h.ticket q t hq).1, (h.ticket q t hq).2.1.trans (Nat.le_succ _),
          (h.ticket q t hq).2.2⟩
        settled := fun a n hn => by rw [hcur]; exact h.settled a n hn
        due_le := fun ℓ => (h.due_le ℓ).trans (Nat.le_succ _)
        mem := fun a ha => by rw [hcur]; exact h.mem a ha },
      ?_⟩
  · exact { Guar.refl S p v with
      clock := Nat.le_succ _
      cur := fun a => .inl (by rw [hcur])
      turn := fun _ => .keep rfl fun _ _ => rfl }

/-- A thread draws its commit timestamp. -/
theorem Inv.draw (h : Inv S v) (hi : (∀ t, v.phase p ≠ .installing t) ∧ v.phase p ≠ .aborting)
    (hpass : (v.phase p).Passed ∨ v.token = 0 ∨ 2 ≤ v.irr p) :
    Inv S { v with clock := v.clock + 1
                   phase := Function.update v.phase p (.ticket (v.clock + 1)) } ∧
      Guar S p v { v with clock := v.clock + 1
                          phase := Function.update v.phase p (.ticket (v.clock + 1)) } := by
  set v' : View Tid Addr Lock w := { v with
    clock := v.clock + 1
    phase := Function.update v.phase p (.ticket (v.clock + 1)) } with hv'
  have hself : v'.phase p = .ticket (v.clock + 1) := by simp [hv']
  have hne : ∀ q, q ≠ p → v'.phase q = v.phase q := fun q hq => by simp [hv', hq]
  have hticket : ∀ q t, v'.phase q = .ticket t → q = p ∧ t = v.clock + 1 ∨
      q ≠ p ∧ v.phase q = .ticket t := by
    intro q t hq
    by_cases hqp : q = p
    · subst hqp
      rw [hself] at hq
      exact .inl ⟨rfl, (Phase.ticket.inj hq).symm⟩
    · exact .inr ⟨hqp, by rwa [hne q hqp] at hq⟩
  have hinst : ∀ q t, v'.phase q = .installing t ↔ v.phase q = .installing t := by
    intro q t
    by_cases hqp : q = p
    · subst hqp
      exact iff_of_false (by rw [hself]; nofun) (hi.1 t)
    · rw [hne q hqp]
  have hdue : ∀ ℓ, v'.due ℓ = v.due ℓ := fun ℓ =>
    due_congr rfl (fun _ _ => rfl) fun q _ => hinst q
  have hquiet : ∀ ℓ, v'.Quiet S ℓ ↔ v.Quiet S ℓ := fun ℓ =>
    quiet_congr rfl (fun _ _ => rfl) fun q _ => hinst q
  have hcur : v'.cur S = v.cur S := h.memAt_of_clock_le (Nat.le_succ _)
  refine ⟨
      { h with
        ts_le := fun c hc => (h.ts_le c hc).trans (Nat.le_succ _)
        ticket := ?_
        ticket_inj := ?_
        settled := ?_
        due_le := ?_
        late := ?_
        apart := ?_
        mem := ?_
        decided := fun q t hq => h.decided q t ((hinst q t).1 hq) },
      ?_⟩
  · intro q t hq
    rcases hticket q t hq with ⟨rfl, rfl⟩ | ⟨-, hq⟩
    · refine ⟨Nat.le_add_left 1 _, le_refl _, fun c hc _ he => ?_⟩
      have := h.ts_le c hc
      omega
    · have := h.ticket q t hq
      exact ⟨this.1, this.2.1.trans (Nat.le_succ _), this.2.2⟩
  · intro q r t hq hr
    rcases hticket q t hq with ⟨hqp, htq⟩ | ⟨-, hq'⟩ <;>
      rcases hticket r t hr with ⟨hrp, htr⟩ | ⟨-, hr'⟩
    · exact hqp.trans hrp.symm
    · have := (h.ticket r t hr').2.1
      omega
    · have := (h.ticket q t hq').2.1
      omega
    · exact h.ticket_inj q r t hq' hr'
  · exact fun a n hn => by
      rw [hcur]
      exact h.settled a n (by rwa [hdue] at hn)
  · exact fun ℓ => by
      rw [hdue]
      exact (h.due_le ℓ).trans (Nat.le_succ _)
  · intro ℓ q i t hl hq
    rcases hq with hq | hq
    · rcases hticket q t hq with ⟨rfl, rfl⟩ | ⟨-, hq⟩
      · exact Nat.lt_succ_of_le (h.lastTs_le_clock ℓ)
      · exact h.late ℓ q i t hl (.inl hq)
    · exact h.late ℓ q i t hl (.inr ((hinst q t).1 hq))
  · intro q t hq c hc ht a ha
    rcases hticket q t hq with ⟨rfl, rfl⟩ | ⟨-, hq⟩
    · have := h.ts_le c hc
      have : c.pos ≤ c.ts := by unfold Commit.pos; split <;> omega
      omega
    · exact h.apart q t hq c hc ht a ha
  · exact fun a ha => by
      rw [hcur]
      exact h.mem a ((hquiet _).1 ha)
  · exact {
      clock := Nat.le_succ _
      mem := fun _ => .inl rfl
      still := fun _ _ => rfl
      lastTs := fun _ => le_refl _
      due := fun ℓ => (hdue ℓ).ge
      cur := fun a => .inl (by rw [hcur])
      memAt := fun _ _ _ => .inl rfl
      locks := fun _ _ _ _ => Iff.rfl
      saved := fun _ _ _ _ => rfl
      acquire := fun _ h => .inl h
      draw := fun t ht => by
        rcases hticket p t ht with ⟨-, rfl⟩ | ⟨hp, -⟩
        · exact .inr (Nat.lt_succ_self _)
        · exact (hp rfl).elim
      stamp := fun _ => le_refl _
      pass := fun _ => hpass
      phase := hne
      irr := fun _ _ => rfl
      attr := fun _ _ => rfl
      turn := fun _ => .keep rfl fun _ _ => rfl
      commits := fun _ h => h
      decide := fun t ht => .inl ((hinst p t).1 ht)
      abort := fun ha => (hi.2 ha).elim }

section locks
variable [DecidableEq Lock]

omit [DecidableEq Tid] in
/-- A thread that has not begun to commit acquires a free lock. -/
theorem Inv.acquire (h : Inv S v) (hl : v.locks ℓ = .free l) (hp : v.phase p = .running)
    (ha : S.attrs (v.attr p)) (i : ℕ) :
    Inv S { v with locks := Function.update v.locks ℓ (.owned p i)
                   saved := Function.update v.saved ℓ l } ∧
      Guar S p v { v with locks := Function.update v.locks ℓ (.owned p i)
                          saved := Function.update v.saved ℓ l } := by
  set v' : View Tid Addr Lock w := { v with
    locks := Function.update v.locks ℓ (.owned p i)
    saved := Function.update v.saved ℓ l } with hv'
  have hl' : v'.locks ℓ = .owned p i := by simp [hv']
  have hs' : v'.saved ℓ = l := by simp [hv']
  have hlne : ∀ m, m ≠ ℓ → v'.locks m = v.locks m := fun m hm => by simp [hv', hm]
  have hsne : ∀ m, m ≠ ℓ → v'.saved m = v.saved m := fun m hm => by simp [hv', hm]
  have hni : ∀ t, v'.phase p ≠ .installing t := fun t ht => by
    have : v.phase p = .installing t := ht
    rw [hp] at this
    cases this
  have hword : ∀ m, v'.lastWord m = v.lastWord m := by
    intro m
    by_cases hm : m = ℓ
    · subst hm
      rw [lastWord_of_owned hl', hs', lastWord_of_free hl]
    · exact lastWord_congr (hlne m hm) fun _ _ => hsne m hm
  have hlast : ∀ m, v'.lastTs m = v.lastTs m := fun m => congrArg lockGetTimestamp (hword m)
  have hdue : ∀ m, v'.due m = v.due m := by
    intro m
    by_cases hm : m = ℓ
    · subst hm
      rw [due_of_owned hl' hni, hlast, lastTs_of_free hl, due_of_free hl]
    · exact due_congr (hlne m hm) (fun _ _ => hsne m hm) fun _ _ _ => Iff.rfl
  have howned : ∀ q m j, v'.locks m = .owned q j → m = ℓ ∧ q = p ∨ v.locks m = .owned q j := by
    intro q m j hm
    by_cases hmℓ : m = ℓ
    · subst hmℓ
      rw [hl'] at hm
      injection hm with h1 h2
      exact .inl ⟨rfl, h1.symm⟩
    · exact .inr ((hlne m hmℓ).symm.trans hm)
  refine ⟨
      { h with
        settled := ?_
        due_le := ?_
        late := ?_
        apart := ?_
        mem := ?_
        owner := ?_
        plain := fun m => ?_ },
      ?_⟩
  · exact fun a n hn => h.settled a n (by rwa [hdue] at hn)
  · exact fun m => by rw [hdue]; exact h.due_le m
  · intro m q j t hm hq
    rw [hlast]
    rcases howned q m j hm with ⟨-, rfl⟩ | hm
    · have hq : v.phase q = .ticket t ∨ v.phase q = .installing t := hq
      rw [hp] at hq
      rcases hq with hq | hq <;> cases hq
    · exact h.late m q j t hm hq
  · rintro q t hq c hc ht a ha ⟨j, hj⟩
    rcases howned q _ j hj with ⟨-, rfl⟩ | hm
    · have hq : v.phase q = .ticket t := hq
      rw [hp] at hq
      cases hq
    · exact h.apart q t hq c hc ht a ha ⟨j, hm⟩
  · intro a ha
    by_cases hm : S.cfg.getLock a = ℓ
    · exact h.mem_of_free (hm ▸ hl)
    · exact h.mem a ((quiet_congr (hlne _ hm) (fun _ _ => rfl) fun _ _ _ => Iff.rfl).1 ha)
  · rintro q m ⟨j, hm⟩
    rcases howned q m j hm with ⟨-, rfl⟩ | hm
    · exact ha
    · exact h.owner q m ⟨j, hm⟩
  · rw [hword]
    exact h.plain m
  · exact {
      clock := le_refl _
      mem := fun _ => .inl rfl
      still := fun _ _ => rfl
      lastTs := fun m => (hlast m).ge
      due := fun m => (hdue m).ge
      cur := fun _ => .inl rfl
      memAt := fun _ _ _ => .inl rfl
      locks := by
        intro q hq m j
        refine ⟨fun hm => (howned q m j hm).resolve_left fun h => hq h.2, fun hm => ?_⟩
        have hmℓ : m ≠ ℓ := by
          rintro rfl
          rw [hl] at hm
          cases hm
        exact (hlne m hmℓ).trans hm
      saved := by
        rintro q - m ⟨j, hm⟩
        refine hsne m ?_
        rintro rfl
        rw [hl] at hm
        cases hm
      acquire := fun _ _ => .inr hp
      draw := fun _ h => .inl h
      stamp := by
        intro m
        by_cases hm : m = ℓ
        · subst hm
          rw [stamp_of_owned hl', hs', stamp_of_free hl]
          exact Nat.le_add_right _ _
        · exact (stamp_congr (hlne m hm) (fun _ _ => hsne m hm) fun _ _ => rfl).ge
      pass := fun h => .inl h
      phase := fun _ _ => rfl
      irr := fun _ _ => rfl
      attr := fun _ _ => rfl
      turn := by
        intro m
        by_cases hm : m = ℓ
        · subst hm
          exact .acquire hl hl' hs'
        · exact .keep (hlne m hm) fun _ _ => hsne m hm
      commits := fun _ h => h
      decide := fun _ h => .inl h
      abort := fun h => .inl h }

omit [DecidableEq Tid] [DecidableEq Addr] [DecidableEq Lock] in
/-- Only write-through stores a word with an incarnation number. -/
theorem Releases.plain (h : v.Releases S p ℓ l) (ha : S.attrs (v.attr p)) :
    Plain l ∨ ∃ attr, S.attrs attr ∧ S.cfg.designOf attr = .writeThrough := by
  by_cases hi : ∃ t, v.phase p = .installing t
  · obtain ⟨t, ht⟩ := hi
    exact .inl (h.1 t ht ▸ plain_lockSetTimestamp t)
  · by_cases hd : S.cfg.designOf (v.attr p) = .writeThrough
    · exact .inr ⟨_, ha, hd⟩
    · exact .inl ((h.2 fun t ht => hi ⟨t, ht⟩).2 hd ▸ plain_lockSetTimestamp _)

omit [DecidableEq Tid] in
/-- The owner of a lock whose stripe is in memory releases it. -/
theorem Inv.release (h : Inv S v) (hl : v.locks ℓ = .owned p i)
    (hmem : ∀ a, S.cfg.getLock a = ℓ → v.mem a = v.cur S a)
    (hdl : v.due ℓ ≤ lockGetTimestamp l) (hlc : lockGetTimestamp l ≤ v.clock)
    (hst : v.stamp S ℓ ≤ 2 * l) (hr : v.Releases S p ℓ l) :
    Inv S { v with locks := Function.update v.locks ℓ (.free l) } ∧
      Guar S p v { v with locks := Function.update v.locks ℓ (.free l) } := by
  set v' : View Tid Addr Lock w := { v with
    locks := Function.update v.locks ℓ (.free l) } with hv'
  have hl' : v'.locks ℓ = .free l := by simp [hv']
  have hlne : ∀ m, m ≠ ℓ → v'.locks m = v.locks m := fun m hm => by simp [hv', hm]
  have hlast : ∀ m, m ≠ ℓ → v'.lastTs m = v.lastTs m := fun m hm =>
    lastTs_congr (hlne m hm) fun _ _ => rfl
  have hdue : ∀ m, v.due m ≤ v'.due m := by
    intro m
    by_cases hm : m = ℓ
    · subst hm
      rwa [due_of_free hl']
    · exact (due_congr (hlne m hm) (fun _ _ => rfl) fun _ _ _ => Iff.rfl).ge
  have howned : ∀ q m j, v'.locks m = .owned q j → m ≠ ℓ ∧ v.locks m = .owned q j := by
    intro q m j hm
    have hmℓ : m ≠ ℓ := by
      rintro rfl
      rw [hl'] at hm
      cases hm
    exact ⟨hmℓ, (hlne m hmℓ).symm.trans hm⟩
  refine ⟨
      { h with
        settled := ?_
        due_le := ?_
        late := ?_
        apart := ?_
        mem := ?_
        owner := fun q m ⟨j, hj⟩ => h.owner q m ⟨j, (howned q m j hj).2⟩
        plain := fun m => ?_ },
      ?_⟩
  · exact fun a n hn => h.settled a n ((hdue _).trans hn)
  · intro m
    by_cases hm : m = ℓ
    · subst hm
      rwa [due_of_free hl']
    · rw [due_congr (hlne m hm) (fun _ _ => rfl) fun _ _ _ => Iff.rfl]
      exact h.due_le m
  · intro m q j t hm hq
    obtain ⟨hmℓ, hm⟩ := howned q m j hm
    rw [hlast m hmℓ]
    exact h.late m q j t hm hq
  · rintro q t hq c hc ht a ha ⟨j, hj⟩
    exact h.apart q t hq c hc ht a ha ⟨j, (howned q _ j hj).2⟩
  · intro a ha
    by_cases hm : S.cfg.getLock a = ℓ
    · exact hmem a hm
    · exact h.mem a ((quiet_congr (hlne _ hm) (fun _ _ => rfl) fun _ _ _ => Iff.rfl).1 ha)
  · by_cases hm : m = ℓ
    · subst hm
      rw [lastWord_of_free hl']
      exact hr.plain (h.owner p m ⟨i, hl⟩)
    · rw [lastWord_congr (hlne m hm) fun _ _ => rfl]
      exact h.plain m
  · exact {
      clock := le_refl _
      mem := fun _ => .inl rfl
      still := fun _ _ => rfl
      lastTs := by
        intro m
        by_cases hm : m = ℓ
        · subst hm
          rw [lastTs_of_free hl']
          exact (h.lastTs_le_due m).trans hdl
        · exact (hlast m hm).ge
      due := hdue
      cur := fun _ => .inl rfl
      memAt := fun _ _ _ => .inl rfl
      locks := by
        intro q hq m j
        refine ⟨fun hm => (howned q m j hm).2, fun hm => ?_⟩
        have hmℓ : m ≠ ℓ := by
          rintro rfl
          rw [hl] at hm
          injection hm with h1 h2
          exact hq h1.symm
        exact (hlne m hmℓ).trans hm
      saved := fun _ _ _ _ => rfl
      acquire := fun m ⟨j, hj⟩ => .inl ⟨j, (howned p m j hj).2⟩
      draw := fun _ h => .inl h
      stamp := by
        intro m
        by_cases hm : m = ℓ
        · subst hm
          rwa [stamp_of_free hl']
        · exact (stamp_congr (hlne m hm) (fun _ _ => rfl) fun _ _ => rfl).ge
      pass := fun h => .inl h
      phase := fun _ _ => rfl
      irr := fun _ _ => rfl
      attr := fun _ _ => rfl
      turn := by
        intro m
        by_cases hm : m = ℓ
        · subst hm
          exact .release hl hl' hr
        · exact .keep (hlne m hm) fun _ _ => rfl
      commits := fun _ h => h
      decide := fun _ h => .inl h
      abort := fun h => .inl h }

end locks

omit [DecidableEq Tid] in
/-- The owner of a stripe that is not quiet stores to one of its words. -/
theorem Inv.store (h : Inv S v) (hp : v.Holds p (S.cfg.getLock a))
    (hq : ¬ v.Quiet S (S.cfg.getLock a)) (x : BitVec w) :
    Inv S { v with mem := Function.update v.mem a x } ∧
      Guar S p v { v with mem := Function.update v.mem a x } := by
  have hne : ∀ b, v.Quiet S (S.cfg.getLock b) → b ≠ a := by
    rintro b hb rfl
    exact hq hb
  refine ⟨{ h with mem := fun b hb => ?_ }, { Guar.refl S p v with
    mem := fun b => ?_
    still := fun b hb => Function.update_of_ne (hne b hb) x v.mem
    turn := fun _ => .keep rfl fun _ _ => rfl }⟩
  · exact (Function.update_of_ne (hne b hb) x v.mem).trans (h.mem b hb)
  · by_cases hb : b = a
    · exact .inr (hb ▸ hp)
    · exact .inl (Function.update_of_ne hb x v.mem)

/-- A thread that owns no lock sets its attributes. -/
theorem Inv.setAttr (h : Inv S v) (hp : ∀ ℓ, ¬ v.Holds p ℓ) (attr : Attr) :
    Inv S { v with attr := Function.update v.attr p attr } ∧
      Guar S p v { v with attr := Function.update v.attr p attr } := by
  set v' : View Tid Addr Lock w := { v with attr := Function.update v.attr p attr } with hv'
  have hattr : ∀ q ℓ, v.Holds q ℓ → v'.attr q = v.attr q := by
    intro q ℓ hq
    refine Function.update_of_ne ?_ attr v.attr
    rintro rfl
    exact hp ℓ hq
  have hquiet : ∀ ℓ, v'.Quiet S ℓ ↔ v.Quiet S ℓ := fun ℓ =>
    quiet_congr rfl (fun q hq => hattr q ℓ hq) fun _ _ _ => Iff.rfl
  have hstamp : ∀ ℓ, v'.stamp S ℓ = v.stamp S ℓ := fun ℓ =>
    stamp_congr rfl (fun _ _ => rfl) fun q hq => hattr q ℓ hq
  refine ⟨{ h with mem := fun a ha => ?_, owner := fun q ℓ hq => ?_ }, { Guar.refl S p v with
    stamp := fun ℓ => ?_
    attr := fun q hq => Function.update_of_ne hq attr v.attr
    turn := fun _ => .keep rfl fun _ _ => rfl }⟩
  · exact h.mem a ((hquiet _).1 ha)
  · exact (congrArg S.attrs (hattr q ℓ hq)).mpr (h.owner q ℓ hq)
  · exact (hstamp ℓ).ge

/-- The token is taken. -/
theorem Inv.takeToken (h : Inv S v) (ht : v.token = 0) (he : S.tokens)
    (k : ℕ) : Inv S { v with token := 1, irr := Function.update v.irr p k } ∧
      Guar S p v { v with token := 1, irr := Function.update v.irr p k } := by
  have hself : S.hint → ∀ q, 2 ≤ Function.update v.irr p k q → q = p := by
    intro hh q hq
    by_contra hqp
    rw [Function.update_of_ne hqp] at hq
    have := h.token hh q hq
    omega
  refine ⟨{ h with
    token := fun _ _ _ => rfl
    token_inj := fun hh q r hq hr => (hself hh q hq).trans (hself hh r hr).symm
    off := fun hoff => (hoff he).elim }, { Guar.refl S p v with
    irr := fun q hq => Function.update_of_ne hq k v.irr
    turn := fun _ => .keep rfl fun _ _ => rfl }⟩

/-- The irrevocability of a thread changes, and it does not claim the token without holding it. -/
theorem Inv.setIrr (h : Inv S v) (he : S.tokens) {k : ℕ}
    (hk : 2 ≤ k → 2 ≤ v.irr p) : Inv S { v with irr := Function.update v.irr p k } ∧
      Guar S p v { v with irr := Function.update v.irr p k } := by
  have hold : ∀ q, 2 ≤ Function.update v.irr p k q → 2 ≤ v.irr q := by
    intro q hq
    by_cases hqp : q = p
    · subst hqp
      rw [Function.update_self] at hq
      exact hk hq
    · rwa [Function.update_of_ne hqp] at hq
  refine ⟨{ h with
    token := fun hh q hq => h.token hh q (hold q hq)
    token_inj := fun hh q r hq hr => h.token_inj hh q r (hold q hq) (hold r hr)
    off := fun hoff => (hoff he).elim }, { Guar.refl S p v with
    irr := fun q hq => Function.update_of_ne hq k v.irr
    turn := fun _ => .keep rfl fun _ _ => rfl }⟩

/-- The token is given back, by its holder where that matters. -/
theorem Inv.giveToken (h : Inv S v) (hp : S.hint → 2 ≤ v.irr p) :
    Inv S { v with token := 0, irr := Function.update v.irr p 0 } ∧
      Guar S p v { v with token := 0, irr := Function.update v.irr p 0 } := by
  have hnone : S.hint → ∀ q, ¬ 2 ≤ Function.update v.irr p 0 q := by
    intro hh q hq
    by_cases hqp : q = p
    · subst hqp
      rw [Function.update_self] at hq
      omega
    · rw [Function.update_of_ne hqp] at hq
      exact hqp (h.token_inj hh q p hq (hp hh))
  refine ⟨{ h with
    token := fun hh q hq => (hnone hh q hq).elim
    token_inj := fun hh q r hq _ => (hnone hh q hq).elim
    off := fun hoff => ⟨rfl, fun q => ?_⟩ }, { Guar.refl S p v with
    irr := fun q hq => Function.update_of_ne hq 0 v.irr
    turn := fun _ => .keep rfl fun _ _ => rfl }⟩
  by_cases hqp : q = p
  · subst hqp
    exact Function.update_self ..
  · exact (Function.update_of_ne hqp ..).trans ((h.off hoff).2 q)

section commit
variable {tr : Trace Addr w}

omit [DecidableEq Tid] in
/-- What the commit of a thread with ticket `t` makes of the memory as of `n`. -/
theorem Inv.memAt_decide (h : Inv S v) (hp : v.phase p = .ticket t)
    (hw : ∀ a ∈ tr.writes, v.Holds p (S.cfg.getLock a)) (n : ℕ) (a : Addr) :
    History.memAt S.mem₀ (⟨p, t, true, tr⟩ :: v.commits) n a =
      if a ∈ tr.writes ∧ t ≤ n then tr.apply (v.memAt S (t - 1)) a else v.memAt S n a := by
  obtain ⟨ht1, -, htd⟩ := h.ticket p t hp
  split
  case isTrue ha =>
    refine History.memAt_cons_of_mem rfl ht1 (fun d hd hu hlt hda => ?_) ha.2
    have hpos : t ≤ d.pos := by
      rw [Commit.pos, if_pos hu]
      change t < d.ts at hlt
      omega
    exact h.apart p t hp d hd hpos a (.inl hda) (hw a ha.1)
  case isFalse ha =>
    by_cases haw : a ∈ tr.writes
    · have hn : n < t := by
        by_contra hn
        exact ha ⟨haw, by omega⟩
      exact congrFun (History.memAt_cons_of_lt hn) a
    · exact History.memAt_cons_of_not_mem htd haw

/-- A thread whose commit can no longer fail commits. Its stores go to stripes it owns, and what it
has loaded is the memory before its timestamp, which no commit on its way can change. -/
theorem Inv.decide (h : Inv S v) (hp : v.phase p = .ticket t)
    (hw : ∀ a ∈ tr.writes, v.Holds p (S.cfg.getLock a))
    (hr : S.hint → tr.Consistent (v.memAt S (t - 1)) ∧ ∀ a ∈ tr.reads, ∀ q t', q ≠ p →
      v.phase q = .ticket t' → v.Holds q (S.cfg.getLock a) → t ≤ t') :
    Inv S { v with commits := ⟨p, t, true, tr⟩ :: v.commits
                   phase := Function.update v.phase p (.installing t) } ∧
      Guar S p v { v with commits := ⟨p, t, true, tr⟩ :: v.commits
                          phase := Function.update v.phase p (.installing t) } := by
  set v' : View Tid Addr Lock w := { v with
    commits := ⟨p, t, true, tr⟩ :: v.commits
    phase := Function.update v.phase p (.installing t) } with hv'
  obtain ⟨ht1, htc, htd⟩ := h.ticket p t hp
  have hself : v'.phase p = .installing t := by simp [hv']
  have hne : ∀ q, q ≠ p → v'.phase q = v.phase q := fun q hq => by simp [hv', hq]
  have hmemAt : ∀ n a, v'.memAt S n a =
      if a ∈ tr.writes ∧ t ≤ n then tr.apply (v.memAt S (t - 1)) a else v.memAt S n a :=
    h.memAt_decide hp hw
  have hlow : v'.memAt S (t - 1) = v.memAt S (t - 1) := funext fun a => by
    rw [hmemAt, if_neg fun ha => by omega]
  have hticket : ∀ q t', v'.phase q = .ticket t' → q ≠ p ∧ v.phase q = .ticket t' := by
    intro q t' hq
    have hqp : q ≠ p := by
      rintro rfl
      rw [hself] at hq
      cases hq
    exact ⟨hqp, by rwa [hne q hqp] at hq⟩
  have hnip : ∀ t', v.phase p ≠ .installing t' := fun t' h' => by
    rw [hp] at h'
    cases h'
  have hheld : ∀ ℓ, v.Holds p ℓ → v'.due ℓ = t ∧ v.due ℓ < t := by
    rintro ℓ ⟨j, hj⟩
    refine ⟨due_of_installing hj hself, ?_⟩
    rw [due_of_owned hj hnip]
    exact h.late ℓ p j t hj (.inl hp)
  have hfree : ∀ ℓ, ¬ v.Holds p ℓ → v'.due ℓ = v.due ℓ := fun ℓ hℓ =>
    due_congr rfl (fun _ _ => rfl) fun q hq t' => by
      rw [hne q fun hqp => hℓ (hqp ▸ hq)]
  have hdue : ∀ ℓ, v.due ℓ ≤ v'.due ℓ := by
    intro ℓ
    by_cases hℓ : v.Holds p ℓ
    · rw [(hheld ℓ hℓ).1]
      exact (hheld ℓ hℓ).2.le
    · exact (hfree ℓ hℓ).ge
  have hcur : ∀ a, a ∉ tr.writes → v'.cur S a = v.cur S a := fun a ha =>
    (hmemAt _ a).trans (if_neg fun h => ha h.1)
  refine ⟨
      { h with
        ordered :=
          { distinct := ?_
            pos := ?_
            readOnly := ?_ }
        consistent := ?_
        ts_le := ?_
        ticket := ?_
        ticket_inj := ?_
        settled := ?_
        due_le := ?_
        late := ?_
        apart := ?_
        mem := ?_
        decided := ?_ },
      ?_⟩
  · exact List.pairwise_cons.2 ⟨fun d hd _ hu he => htd d hd hu he.symm, h.ordered.distinct⟩
  · exact List.forall_mem_cons.2 ⟨fun _ => ht1, h.ordered.pos⟩
  · exact List.forall_mem_cons.2 ⟨fun hu => (hu rfl).elim, h.ordered.readOnly⟩
  · refine fun hS => List.forall_mem_cons.2 ⟨?_, fun d hd => ?_⟩
    · change tr.Consistent (v'.memAt S (t - 1))
      rw [hlow]
      exact (hr hS).1
    · refine (h.consistent hS d hd).congr fun a ha => ?_
      rw [hmemAt, if_neg]
      rintro ⟨haw, hle⟩
      exact h.apart p t hp d hd hle a (.inr ⟨hS, ha⟩) (hw a haw)
  · exact List.forall_mem_cons.2 ⟨htc, h.ts_le⟩
  · intro q t' hq
    obtain ⟨hqp, hq⟩ := hticket q t' hq
    have := h.ticket q t' hq
    refine ⟨this.1, this.2.1, List.forall_mem_cons.2 ⟨?_, this.2.2⟩⟩
    rintro - rfl
    exact hqp (h.ticket_inj q p _ hq hp)
  · exact fun q r t' hq hr => h.ticket_inj q r t' (hticket q t' hq).2 (hticket r t' hr).2
  · intro a n hn
    have hs := h.settled a n ((hdue _).trans hn)
    by_cases ha : a ∈ tr.writes
    · rw [(hheld _ (hw a ha)).1] at hn
      rw [cur, hmemAt, hmemAt, if_pos ⟨ha, hn⟩, if_pos ⟨ha, htc⟩]
    · rw [hcur a ha, hmemAt, if_neg fun h => ha h.1, hs]
  · intro ℓ
    by_cases hℓ : v.Holds p ℓ
    · rw [(hheld ℓ hℓ).1]
      exact htc
    · rw [hfree ℓ hℓ]
      exact h.due_le ℓ
  · intro ℓ q j t' hl hq
    by_cases hqp : q = p
    · subst hqp
      rw [hself] at hq
      rcases hq with hq | hq
      · cases hq
      · injection hq with ht
        exact ht ▸ h.late ℓ q j t hl (.inl hp)
    · rw [hne q hqp] at hq
      exact h.late ℓ q j t' hl hq
  · intro q t' hq c hc hle a ha hqa
    obtain ⟨hqp, hq⟩ := hticket q t' hq
    rcases List.mem_cons.1 hc with rfl | hc
    · change t' ≤ t - 1 at hle
      rcases ha with ha | ⟨hS, ha⟩
      · exact hqp (hqa.unique (hw a ha))
      · have := (hr hS).2 a ha q t' hqp hq hqa
        omega
    · exact h.apart q t' hq c hc hle a ha hqa
  · intro a ha
    have hna : ¬ v.Holds p (S.cfg.getLock a) := fun hpa =>
      ((quiet_of_owned (v := v') hpa).1 ha).2 t hself
    have hquiet : v'.Quiet S (S.cfg.getLock a) ↔ v.Quiet S (S.cfg.getLock a) :=
      quiet_congr rfl (fun _ _ => rfl) fun q hq t' => by rw [hne q fun hqp => hna (hqp ▸ hq)]
    rw [hcur a fun haw => hna (hw a haw)]
    exact h.mem a (hquiet.1 ha)
  · intro q t' hq
    by_cases hqp : q = p
    · subst hqp
      rw [hself] at hq
      exact ⟨_, .head _, rfl, Phase.installing.inj hq, rfl⟩
    · rw [hne q hqp] at hq
      obtain ⟨c, hc, h⟩ := h.decided q t' hq
      exact ⟨c, .tail _ hc, h⟩
  · exact {
      clock := le_refl _
      mem := fun _ => .inl rfl
      still := fun _ _ => rfl
      lastTs := fun _ => le_refl _
      due := hdue
      cur := by
        intro a
        by_cases ha : a ∈ tr.writes
        · have := hheld _ (hw a ha)
          exact .inr ⟨by omega, by simp [hp], hw a ha⟩
        · exact .inl (hcur a ha)
      memAt := by
        intro a n _
        by_cases ha : a ∈ tr.writes ∧ t ≤ n
        · exact .inr ⟨t, hp, ha.2, hw a ha.1⟩
        · exact .inl ((hmemAt n a).trans (if_neg ha))
      locks := fun _ _ _ _ => Iff.rfl
      saved := fun _ _ _ _ => rfl
      acquire := fun _ h => .inl h
      draw := fun t' ht => ((hticket p t' ht).1 rfl).elim
      stamp := fun _ => le_refl _
      pass := fun _ => .inl (by simp [hp])
      phase := hne
      irr := fun _ _ => rfl
      attr := fun _ _ => rfl
      turn := fun _ => .keep rfl fun _ _ => rfl
      commits := fun _ => .tail _
      decide := fun t' ht => by
        rw [hself] at ht
        exact .inr (Phase.installing.inj ht ▸ hp)
      abort := fun ha => by rw [hp] at ha; cases ha }

omit [DecidableEq Tid] in
/-- A thread that has stored nothing commits at a time `n`: what it has loaded is the memory as of
`n`, which no commit on its way can change. -/
theorem Inv.commitReadOnly (h : Inv S v) (hn : n ≤ v.clock) (hw : tr.writes = [])
    (hr : S.hint → tr.Consistent (v.memAt S n) ∧ ∀ a ∈ tr.reads, ∀ q t',
      v.phase q = .ticket t' → v.Holds q (S.cfg.getLock a) → n < t') :
    Inv S { v with commits := ⟨p, n, false, tr⟩ :: v.commits } ∧
      Guar S p v { v with commits := ⟨p, n, false, tr⟩ :: v.commits } := by
  set v' : View Tid Addr Lock w := { v with commits := ⟨p, n, false, tr⟩ :: v.commits } with hv'
  have hmemAt : ∀ k, v'.memAt S k = v.memAt S k := fun k => History.memAt_cons_of_not_update rfl
  have hcur : v'.cur S = v.cur S := hmemAt _
  refine ⟨
      { h with
        ordered :=
          { distinct := ?_
            pos := ?_
            readOnly := ?_ }
        consistent := ?_
        ts_le := ?_
        ticket := ?_
        settled := ?_
        apart := ?_
        mem := ?_
        decided := fun q t hq =>
          have ⟨c, hc, h⟩ := h.decided q t hq; ⟨c, .tail _ hc, h⟩ },
      { Guar.refl S p v with
        cur := ?_
        memAt := ?_
        turn := fun _ => .keep rfl fun _ _ => rfl
        commits := fun _ => .tail _ }⟩
  · exact List.pairwise_cons.2 ⟨fun _ _ hu => (nomatch hu), h.ordered.distinct⟩
  · exact List.forall_mem_cons.2 ⟨fun hu => (nomatch hu), h.ordered.pos⟩
  · exact List.forall_mem_cons.2 ⟨fun _ => hw, h.ordered.readOnly⟩
  · refine fun hS => List.forall_mem_cons.2 ⟨?_, fun d hd => ?_⟩
    · rw [hmemAt]
      exact (hr hS).1
    · rw [hmemAt]
      exact h.consistent hS d hd
  · exact List.forall_mem_cons.2 ⟨hn, h.ts_le⟩
  · intro q t hq
    have := h.ticket q t hq
    exact ⟨this.1, this.2.1, List.forall_mem_cons.2 ⟨fun hu => (nomatch hu), this.2.2⟩⟩
  · intro a k hk
    rw [hmemAt, hcur]
    exact h.settled a k hk
  · intro q t hq c hc hle a ha hqa
    rcases List.mem_cons.1 hc with rfl | hc
    · rcases ha with ha | ⟨hS, ha⟩
      · rw [hw] at ha
        cases ha
      · have := (hr hS).2 a ha q t hq hqa
        change t ≤ n at hle
        omega
    · exact h.apart q t hq c hc hle a ha hqa
  · intro a ha
    rw [hcur]
    exact h.mem a ha
  · exact fun a => .inl (congrFun hcur a)
  · exact fun a k _ => .inl (congrFun (hmemAt k) a)

end commit

end View

end TinyStm
