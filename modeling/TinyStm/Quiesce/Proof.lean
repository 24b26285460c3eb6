import TinyStm.Quiesce.Protocol

/-!
# The waiting threads keep to the protocol

One specification for each function of `TinyStm.Quiesce.Model`: its actions are steps of `Act`, and
what it leaves of what the thread has to itself. A thread that holds the mutex changes the counter
of active threads and `quiesce` alone; a thread that sleeps is woken up by a broadcast or without a
reason.
-/

namespace TinyStm.Quiesce

variable {Tid Addr : Type} [DecidableEq Tid] {cfg : Config} {p q : Tid}

section
variable {α β : Type} {P J : Assn (protocol cfg : RG (State Tid Addr) Tid) p}
  {Q : α → Assn (protocol cfg : RG (State Tid Addr) Tid) p}

/-- A thread reads the state. -/
theorem read_spec {g : State Tid Addr → β} {c : β → QProg Tid Addr α}
    (R : β → Assn (protocol cfg : RG (State Tid Addr) Tid) p)
    (h : ∀ s, Inv cfg s → P s → R (g s) s) (hc : ∀ b, Triple (protocol cfg) p (R b) (c b) Q J) :
    Triple (protocol cfg) p P (.read g >>= c) Q J :=
  .act R (fun s hs hP => ⟨hs.inv, .stutter, h s hs.inv hP⟩) hc

/-- A thread changes the state. -/
theorem act_spec {g : State Tid Addr → β × State Tid Addr} {c : β → QProg Tid Addr α}
    (R : β → Assn (protocol cfg : RG (State Tid Addr) Tid) p)
    (h : ∀ s, Inv cfg s → P s → Act cfg p s (g s).2 ∧ R (g s).1 (g s).2)
    (hc : ∀ b, Triple (protocol cfg) p (R b) (c b) Q J) :
    Triple (protocol cfg) p P (.atomic g >>= c) Q J :=
  .act R (fun s hs hP => ⟨(h s hs.inv hP).1.inv hs.inv, h s hs.inv hP⟩) hc

end

/-! ## The mutex -/

section
variable {φ : Own → Prop} {J : Assn (protocol cfg : RG (State Tid Addr) Tid) p}

/-- Thread `p` holds the mutex. -/
def holdsMutex : Assn (protocol cfg : RG (State Tid Addr) Tid) p := locked fun _ _ _ => True

/-- `pthread_mutex_trylock`. -/
theorem tryLockMutex_spec {F : Assn (protocol cfg : RG (State Tid Addr) Tid) p}
    (hF : ∀ s, F s → F { s with mutex := some p }) :
    Triple (protocol cfg) p (has φ ⊓ F) (tryLockMutex p)
      (fun ok => if ok then (has fun o => φ o ∧ ¬ o.granted ∧ ¬ o.rolls) ⊓ F ⊓ holdsMutex
        else has φ ⊓ F) J := by
  refine .last (act_spec (fun ok => if ok then (has fun o => φ o ∧ ¬ o.granted ∧ ¬ o.rolls) ⊓ F ⊓
    holdsMutex else has φ ⊓ F) (fun s hs h => ?_) fun _ => .of_ret fun _ _ h => h)
  by_cases hmutex : s.mutex = none
  · simp only [if_pos hmutex]
    refine ⟨.lock hmutex, ⟨⟨h.1, fun hg => ?_, fun hr => ?_⟩, hF s h.2⟩, rfl, trivial⟩
    · cases hmutex.symm.trans (hs.granted p hg).1
    · cases hmutex.symm.trans (hs.rolling p hr).1
  · simp only [if_neg hmutex]
    exact ⟨.stutter, h⟩

/-- `pthread_mutex_lock`. -/
theorem lockMutex_spec {F : Assn (protocol cfg : RG (State Tid Addr) Tid) p}
    (hF : ∀ s, F s → F { s with mutex := some p }) :
    Triple (protocol cfg) p (has φ ⊓ F) (lockMutex p)
      (fun _ => (has fun o => φ o ∧ ¬ o.granted ∧ ¬ o.rolls) ⊓ F ⊓ holdsMutex) J := by
  refine .iterate (fun _ => has φ ⊓ F) (fun _ _ h => h) fun _ => ?_
  refine .bind (tryLockMutex_spec hF) fun ok => ?_
  cases ok with
  | true => exact .of_ret fun _ _ h => h
  | false => exact .of_ret fun _ _ h => h

/-- `pthread_mutex_unlock`. -/
theorem unlockMutex_spec :
    Triple (protocol cfg) p ((has fun o => φ o ∧ ¬ o.granted ∧ ¬ o.rolls) ⊓ holdsMutex)
      (unlockMutex : QProg Tid Addr Unit) (fun _ => has φ) J :=
  .last (act_spec (fun _ => has φ) (fun _ _ h => ⟨.unlock h.2.1 h.1.2.1 h.1.2.2, h.1.1⟩) fun _ =>
    .of_ret fun _ _ h => h)

end

/-! ## The rollover -/

/-- The slots before `i` have no regions, if no thread was inside the collector when the rollover began;
thread `p` rolls the clock over. -/
def emptied (i : ℕ) : Assn (protocol cfg : RG (State Tid Addr) Tid) p where
  holds s := s.rolling = some p ∧ (s.exposed = true ∨ s.uncounted = true ∨
    ∀ j < i, (s.gc.slots j).regions = [])
  stable q hq s s' hs _ hg h := by
    obtain ⟨hrolling, h⟩ := h
    have hmutex := (hs.rolling p hrolling).1
    have hne {r : Tid} (hr : s.rolling = some r) : r = p :=
      Option.some.inj (hr.symm.trans hrolling)
    cases hg with
    | enterWindow => exact ⟨hrolling, .inl (by simp [hrolling])⟩
    | arrive hmutex' => exact (hq (Option.some.inj (hmutex'.symm.trans hmutex))).elim
    | beginRollover hmutex' => exact (hq (Option.some.inj (hmutex'.symm.trans hmutex))).elim
    | reset hr => exact (hq (hne hr)).elim
    | endRollover hr => exact (hq (hne hr)).elim
    | gc _ hbusy _ _ _ =>
      refine ⟨hrolling, ?_⟩
      rcases (hs.rolling p hrolling).2 with hc | hc | ⟨hwindow, hthreads⟩
      · exact .inl hc
      · exact .inr (.inl hc)
      · rcases hbusy with hbusy | hbusy
        · rw [hwindow] at hbusy
          cases hbusy
        · exact (hbusy.2 (hthreads q hbusy.1)).elim
    | _ => exact ⟨hrolling, h⟩

omit [DecidableEq Tid] in
/-- `gc_clean_regions` gives blocks back, and leaves all else alone. -/
theorem gcCleanRegions_within (rs : List (GcRegion (Block Tid Addr))) :
    (gcCleanRegions rs : GcProg Tid (Block Tid Addr) Unit).Within
      fun g g' => ∃ freed, g' = { g with freed := freed } := by
  have hblocks (bs : List (Block Tid Addr × ℕ)) :
      (gcCleanBlocks bs : GcProg Tid (Block Tid Addr) Unit).Within
        fun g g' => ∃ freed, g' = { g with freed := freed } := by
    induction bs with
    | nil => trivial
    | cons b bs ih => exact Prog.within_access (fun s => ⟨_, rfl⟩) fun _ => ih
  induction rs with
  | nil => trivial
  | cons r rs ih => exact (hblocks r.blocks).bind fun _ => ih

/-- What a step of the rollover leaves alone. -/
def KeptByReset (F : State Tid Addr → Prop) : Prop :=
  ∀ s g, GcStep none s.gc g → F s → F { s with gc := g }

/-- A thread that rolls the clock over gives memory back. -/
theorem gcCleanRegions_spec {i : ℕ} {F J : Assn (protocol cfg : RG (State Tid Addr) Tid) p}
    (hF : KeptByReset F.holds) (rs : List (GcRegion (Block Tid Addr))) :
    Triple (protocol cfg) p (F ⊓ emptied i)
      ((gcCleanRegions rs).zoom (·.gc) fun g s => { s with gc := g }) (fun _ => F ⊓ emptied i) J := by
  refine .of_within (gcCleanRegions_within rs).zoom ?_
  rintro s _ hs ⟨_, ⟨freed, rfl⟩, rfl⟩ ⟨h, hrolling, hempty⟩
  have hact : Act cfg p s { s with gc := { s.gc with freed := freed } } :=
    .reset hrolling (.freed ..) (fun c hc => (hs.inv.shape c hc).setFreed freed) fun _ => .inl rfl
  exact ⟨hact.inv hs.inv, hact, hF s _ (.freed ..) h, hrolling, hempty⟩

/-- `gc_reset`, in a rollover. -/
theorem gcReset_spec {g : GcConfig} (hg : cfg.gc = some g)
    {F J : Assn (protocol cfg : RG (State Tid Addr) Tid) p} (hF : KeptByReset F.holds) :
    Triple (protocol cfg) p (F ⊓ emptied 0) ((gcReset g).zoom (·.gc) fun g s => { s with gc := g })
      (fun _ => F ⊓ emptied g.maxGcThreads) J := by
  -- the slots from one that has never been used on have no regions
  have hrest {s : State Tid Addr} {i : ℕ} (hs : Inv cfg s) (hi : (s.gc.slots i).used = .null)
      (h : (emptied i : Assn (protocol cfg) p) s) :
      (emptied g.maxGcThreads : Assn (protocol cfg) p) s := by
    refine ⟨h.1, h.2.imp id (Or.imp id fun h j _ => ?_)⟩
    by_cases hj : j < i
    · exact h j hj
    · exact (hs.shape g hg).blank j ((hs.shape g hg).next i j (Nat.le_of_not_lt hj) hi)
  refine .loop (fun i => F ⊓ emptied i) (fun _ => F ⊓ emptied g.maxGcThreads) (fun _ _ h => h)
    (fun i => ?_) fun _ => .of_ret fun _ _ h => h
  by_cases hi : i < g.maxGcThreads
  · simp only [if_pos hi]
    refine .act (fun used => F ⊓ if used = .null then emptied g.maxGcThreads else emptied i)
      (fun s hs h => ⟨hs.inv, .stutter, h.1, ?_⟩) fun used => ?_
    · dsimp only
      split
      · exact hrest hs.inv ‹_› h.2
      · exact h.2
    by_cases hused : used = .null
    · simp only [Prog.ret_bind, if_pos hused]
      exact .of_ret fun _ _ h => h
    simp only [Prog.ret_bind, if_neg hused]
    refine .act (fun _ => F ⊓ emptied i) (fun s hs h => ⟨hs.inv, .stutter, h⟩) fun regions => ?_
    simp only [Prog.ret_bind, Prog.bind_eq, Prog.zoom_bind]
    refine .bind (gcCleanRegions_spec hF regions) fun _ => ?_
    refine .act (fun _ => F ⊓ emptied (i + 1)) (fun s hs h => ?_) fun _ => .of_ret fun _ _ h => h
    obtain ⟨hF', hrolling, hempty⟩ := h
    have hstep := GcStep.clear s.gc i
      (t := { s.gc.slots i with ts := g.epochMax, regions := [], frees := 0 }) rfl rfl
    have hregions (j : ℕ) (t : GcThread (Block Tid Addr)) (ht : t.regions = []) :
        (Function.update s.gc.slots i t j).regions = if j = i then [] else (s.gc.slots j).regions := by
      by_cases hj : j = i
      · subst hj
        rw [Function.update_self, if_pos rfl, ht]
      · rw [Function.update_of_ne hj, if_neg hj]
    have hact : Act cfg p s { s with gc := s.gc.setSlot i fun t =>
        { t with ts := g.epochMax, regions := [], frees := 0 } } := by
      refine .reset hrolling hstep (fun c hc => (hs.inv.shape c hc).clear i rfl rfl) fun j => ?_
      have hj := hregions j { s.gc.slots i with ts := g.epochMax, regions := [], frees := 0 } rfl
      by_cases hji : j = i
      · exact .inr (hj.trans (if_pos hji))
      · exact .inl (hj.trans (if_neg hji))
    refine ⟨hact.inv hs.inv, hact, hF s _ hstep hF', hrolling, ?_⟩
    refine hempty.imp id (Or.imp id fun h j hj => (hregions j _ rfl).trans ?_)
    split
    · rfl
    · exact h j (by omega)
  · simp only [if_neg hi]
    refine .of_ret fun s hs h => ⟨h.1, h.2.1, h.2.2.imp id (Or.imp id fun h j hj => h j (by omega))⟩

/-! ## The barrier -/

section
variable {φ : Own → Prop}

/-- What the thread has to itself inside the barrier. -/
structure Waiting (φ : Own → Prop) (rolls : Prop) (o : Own) : Prop where
  own : φ { o with waiting := False, rolls := False }
  waiting : o.waiting
  granted : ¬ o.granted
  rolls : o.rolls ↔ rolls

/-- `rollover_clock`. -/
theorem rolloverClock_spec {J : Assn (protocol cfg : RG (State Tid Addr) Tid) p} :
    Triple (protocol cfg) p
      ((has (Waiting φ False) ⊓ awake) ⊓ locked fun _ nb _ => nb = 0) (rolloverClock cfg p)
      (fun _ => ((has (Waiting φ True) ⊓ awake) ⊓ holdsMutex) ⊓
        .imp (cfg.gc ≠ none) (.ex fun g : {g // cfg.gc = some g} => emptied g.1.maxGcThreads)) J := by
  refine act_spec (fun _ => ((has (Waiting φ True) ⊓ awake) ⊓ holdsMutex) ⊓ emptied 0)
    (fun s hs ⟨⟨hw, hawake⟩, hmutex, hnb⟩ => ?_) fun _ => ?_
  · refine ⟨.beginRollover hmutex hnb, ⟨⟨⟨?_, hw.waiting, hw.granted, ?_⟩, hawake⟩, hmutex, trivial⟩,
      rfl, ?_⟩
    · exact hw.own
    · exact ⟨fun _ => trivial, fun _ => rfl⟩
    · exact .inr (.inr fun j hj => (Nat.not_lt_zero j hj).elim)
  · unfold callGc
    cases hg : cfg.gc with
    | none => exact .of_ret fun _ _ h => ⟨h.1, fun h => (h rfl).elim⟩
    | some g =>
      refine (gcReset_spec hg fun s g' hstep h => ?_).post (fun _ s hs h => ⟨h.1, fun _ => ?_⟩)
        fun _ _ h => h
      · obtain ⟨⟨hw, hawake⟩, hmutex⟩ := h
        have hown : ({ s with gc := g' } : State Tid Addr).own p = s.own p :=
          own_congr rfl .rfl .rfl .rfl .rfl .rfl (hstep.slotted nofun)
        exact ⟨⟨show Waiting φ True _ from hown ▸ hw, hawake⟩, hmutex⟩
      · exact ⟨⟨g, rfl⟩, h.2⟩

/-- What the loop of the barrier keeps. -/
def inBarrier (φ : Own → Prop) : Assn (protocol cfg : RG (State Tid Addr) Tid) p :=
  (has (Waiting φ False) ⊓ awake) ⊓ holdsMutex

/-- `pthread_cond_wait`, in the barrier. -/
theorem condWait_spec {J : Assn (protocol cfg : RG (State Tid Addr) Tid) p} :
    Triple (protocol cfg) p
      ((has (Waiting φ False) ⊓ awake) ⊓ locked fun quiesce nb _ => quiesce ≠ 0 ∧ nb ≠ 0)
      (condWait p) (fun _ => inBarrier φ) J := by
  refine act_spec (fun _ => has (Waiting φ False)) (fun s hs ⟨⟨hw, hawake⟩, hmutex, hq, hnb⟩ => ?_)
    fun _ => .bind (R := fun _ => has (Waiting φ False) ⊓ awake) (.iterate
      (fun _ => has (Waiting φ False)) (fun _ _ h => h) fun _ => ?_) fun _ => ?_
  · exact ⟨.sleep hmutex hw.granted hw.rolls.1 hw.waiting hawake hq hnb, hw⟩
  · refine read_spec (fun asleep => has (Waiting φ False) ⊓ .imp (asleep = false) awake)
      (fun s hs h => ⟨h, fun hasleep => of_decide_eq_false hasleep⟩) fun asleep => ?_
    cases asleep with
    | true => exact .of_ret fun _ _ h => h.1
    | false => exact .of_ret fun _ _ h => ⟨h.1, h.2 rfl⟩
  · exact (lockMutex_spec fun _ h => h).post (fun _ _ _ h => ⟨⟨h.1.1.1, h.1.2⟩, h.2⟩) fun _ _ h => h

/-- `stm_quiesce_barrier`. -/
theorem stmQuiesceBarrier_spec {J : Assn (protocol cfg : RG (State Tid Addr) Tid) p}
    (hφ : ∀ o, φ o → ¬ o.waiting ∧ ¬ o.rolls ∧ (o.tx.point = .outside ∨ o.tx.point = .preparing) ∧
      o.tx.inGc = false ∧ o.tx.freeing = none) :
    Triple (protocol cfg) p (has φ) (stmQuiesceBarrier cfg p) (fun _ => has φ) J := by
  -- the thread has to itself what it had before, once it has left the barrier
  have hout {o : Own} (hw : ¬ o.waiting) (hr : ¬ o.rolls) :
      { o with waiting := False, rolls := False } = o := by
    obtain ⟨tx, registered, waiting, windowed, granted, rolls, slotted⟩ := o
    simp only [Own.mk.injEq, true_and, and_true]
    exact ⟨(eq_false hw).symm, (eq_false hr).symm⟩
  refine .bind (.pre (lockMutex_spec (F := .pure True) fun _ h => h) fun _ _ h => ⟨h, trivial⟩)
    fun _ => ?_
  refine act_spec (fun _ => inBarrier φ) (fun s hs h => ?_) fun _ => ?_
  · obtain ⟨⟨⟨hown, hgranted, hrolls⟩, -⟩, hmutex, -⟩ := h
    obtain ⟨hw, -, hpoint, hgc, hfreeing⟩ := hφ _ hown
    refine ⟨.arrive hmutex hrolls hw hpoint hgc hfreeing, ⟨⟨?_, ?_, hgranted, ?_⟩, fun h => ?_⟩,
      hmutex, trivial⟩
    · rw [← hout hw hrolls] at hown
      exact hown
    · exact List.mem_cons_self
    · exact ⟨hrolls, False.elim⟩
    · exact hw (hs.asleep p h)
  refine .bind (R := fun _ => (has (Waiting φ False) ⊓ awake) ⊓ locked fun quiesce _ _ => quiesce = 0)
    (.iterate (fun _ => inBarrier φ) (fun _ _ h => h) fun _ => ?_) fun _ => ?_
  · refine read_spec (fun qn => (has (Waiting φ False) ⊓ awake) ⊓
      locked fun quiesce nb _ => quiesce = qn.1 ∧ nb = qn.2)
      (fun s hs h => ⟨h.1, h.2.1, rfl, rfl⟩) fun (quiesce, nb) => ?_
    refine .ite (fun hq => .of_ret fun s _ h => ⟨h.1, h.2.1, h.2.2.1.trans hq⟩) fun hq => ?_
    refine .ite (fun hnb => ?_) fun hnb => ?_
    · refine .bind (rolloverClock_spec.pre fun s _ h => ⟨h.1, h.2.1, h.2.2.2.trans hnb⟩) fun _ => ?_
      refine act_spec (fun _ => inBarrier φ) (fun s hs h => ?_) fun _ => .of_ret fun _ _ h => h
      obtain ⟨⟨⟨hw, hawake⟩, hmutex, -⟩, hempty⟩ := h
      refine ⟨.endRollover (hw.rolls.2 trivial) hw.granted fun hgc => ?_,
        ⟨⟨hw.own, hw.waiting, hw.granted, ⟨nofun, False.elim⟩⟩, nofun⟩, hmutex, trivial⟩
      obtain ⟨⟨g, hg⟩, -, hempty⟩ := hempty hgc
      refine hempty.imp id (Or.imp id fun h i => ?_)
      by_cases hi : i < g.maxGcThreads
      · exact h i hi
      · exact (hs.shape g hg).blank i ((hs.shape g hg).bound i (Nat.le_of_not_lt hi))
    · refine .bind (condWait_spec.pre fun s _ h => ⟨h.1, h.2.1, ?_, ?_⟩) fun _ =>
        .of_ret fun _ _ h => h
      · exact h.2.2.1 ▸ hq
      · exact h.2.2.2 ▸ hnb
  · refine act_spec (fun _ => (has fun o => φ o ∧ ¬ o.granted ∧ ¬ o.rolls) ⊓ holdsMutex)
      (fun s hs ⟨⟨hw, hawake⟩, hmutex, hq⟩ => ?_) fun _ => unlockMutex_spec
    refine ⟨.depart hmutex hw.rolls.1 hw.waiting hawake hq, ⟨?_, hw.granted, hw.rolls.1⟩, hmutex,
      trivial⟩
    have hwaiting : (p ∈ s.barrier.erase p) = False :=
      eq_false (hs.barrier.not_mem_erase)
    have hrolls : (s.rolling = some p) = False := eq_false hw.rolls.1
    have hown := hw.own
    simp only [State.own, hwaiting, hrolls] at hown ⊢
    exact hown

end

/-! ## The quiescence -/

/-- A move does not get past `stm_check_quiesce`. -/
theorem Move.inside {tx tx' : Tx} (h : Move tx tx') (h' : tx'.Inside) : tx.Inside := by
  obtain ⟨hactive, hpoint⟩ := h'
  cases h with
  | prepare => exact (hpoint rfl).elim
  | activate h | irrevocable h => exact (hpoint h).elim
  | idle | abort | commit | init => cases hactive
  | spin _ h => cases h.symm.trans hactive
  | attr | first | grant | forget | gc | freed => exact ⟨hactive, hpoint⟩

/-- A thread gets past `stm_check_quiesce` only if no other thread quiesces, or it overtakes the one that
does. -/
theorem Act.inside {s s' : State Tid Addr} (h : Act cfg q s s') (hs : Inv cfg s) (hq : q ≠ p)
    (hmutex : s.mutex = some p) (hquiesce : s.quiesce = 2) {t : Tid}
    (ht : s.overtaken = true ∨ ¬ (s.txs t).Inside) :
    s'.overtaken = true ∨ ¬ (s'.txs t).Inside := by
  have hother {tx : Tx} (htx : tx.Inside → (s.txs q).Inside) :
      s.overtaken = true ∨ ¬ (Function.update s.txs q tx t).Inside := by
    by_cases htq : t = q
    · subst htq
      rw [Function.update_self]
      exact ht.imp id fun h => mt htx h
    · rwa [Function.update_of_ne htq]
  cases h with
  | pass _ _ hq' =>
    rcases hq' with hq' | hgranted
    · exact (hq' hquiesce).elim
    · exact (hq (Option.some.inj ((hs.granted q hgranted).1.symm.trans hmutex))).elim
  | restore => exact .inl (by simp [hquiesce])
  | grantSerial hmutex' => exact (hq (Option.some.inj (hmutex'.symm.trans hmutex))).elim
  | takeToken _ _ hpoint =>
    refine hother fun h => ⟨h.1, ?_⟩
    rcases hpoint with hpoint | ⟨hpoint, -⟩ <;> rw [hpoint] <;> nofun
  | returnToken _ _ _ hpoint =>
    refine hother fun h => ⟨h.1, ?_⟩
    rcases hpoint with hpoint | hpoint <;> rw [hpoint] <;> nofun
  | giveUp _ _ hinactive => exact hother fun h => by cases hinactive.symm.trans h.1
  | request => exact hother id
  | start | epoch => exact hother id
  | move hmove => exact hother hmove.inside
  | _ => exact ht

/-- Thread `p` quiesces, and the threads `D` are not past `stm_check_quiesce`. -/
def quiesced (threads : List Tid) (D : Tid → Prop) :
    Assn (protocol cfg : RG (State Tid Addr) Tid) p where
  holds s := (s.mutex = some p ∧ s.quiesce = 2 ∧ s.threads = threads) ∧
    ∀ t, t ≠ p → D t → s.overtaken = true ∨ ¬ (s.txs t).Inside
  stable q hq s s' hs _ hg h := by
    obtain ⟨⟨hmutex, hquiesce, hthreads⟩, h⟩ := h
    obtain ⟨hmutex', hquiesce', -, hthreads'⟩ := Act.guarded hg hs hq hmutex
    refine ⟨⟨hmutex', hquiesce'.trans hquiesce, hthreads'.trans hthreads⟩, fun t htp ht => ?_⟩
    exact Act.inside hg hs hq hmutex hquiesce (h t htp ht)

/-- The threads of the list are waited for. -/
theorem waitInactive_spec {φ : Own → Prop} {J : Assn (protocol cfg : RG (State Tid Addr) Tid) p}
    {threads : List Tid} (ts : List Tid) (D : Tid → Prop) :
    Triple (protocol cfg) p (has φ ⊓ quiesced threads D) (waitInactive p ts)
      (fun _ => has φ ⊓ quiesced threads fun t => D t ∨ t ∈ ts) J := by
  induction ts generalizing D with
  | nil =>
    exact .of_ret fun s _ h => ⟨h.1, h.2.1, fun t htp ht => h.2.2 t htp (ht.resolve_right nofun)⟩
  | cons t ts ih =>
    unfold waitInactive
    refine .ite (fun htp => (ih D).post (fun _ s _ h => ?_) fun _ _ h => h) fun htp => ?_
    · refine ⟨h.1, h.2.1, fun u hup hu => h.2.2 u hup (hu.imp id fun hu => ?_)⟩
      exact (List.mem_cons.1 hu).resolve_left fun hut => hup (hut.trans htp)
    · refine .bind (R := fun _ => has φ ⊓ quiesced threads fun u => D u ∨ u = t) (.iterate
        (fun _ => has φ ⊓ quiesced threads D) (fun _ _ h => h) fun _ => ?_) fun _ =>
        (ih _).post (fun _ s _ h => ?_) fun _ _ h => h
      · refine read_spec (fun active => has φ ⊓ quiesced threads fun u => D u ∨ u = t ∧ active = false)
          (fun s hs h => ⟨h.1, h.2.1, fun u hup hu => ?_⟩) fun active => ?_
        · rcases hu with hu | ⟨rfl, hinactive⟩
          · exact h.2.2 u hup hu
          · exact .inr fun hinside => by cases hinactive.symm.trans hinside.1
        · cases active with
          | true => exact .of_ret fun s _ h => ⟨h.1, h.2.1, fun u hup hu => h.2.2 u hup (.inl hu)⟩
          | false =>
            exact .of_ret fun s _ h => ⟨h.1, h.2.1, fun u hup hu =>
              h.2.2 u hup (hu.imp id fun hu => ⟨hu, rfl⟩)⟩
      · refine ⟨h.1, h.2.1, fun u hup hu => h.2.2 u hup ?_⟩
        rcases hu with hu | hu
        · exact .inl (.inl hu)
        · exact (List.mem_cons.1 hu).elim (fun hu => .inl (.inr hu)) .inr

/-- `stm_quiesce(tx, 1)`: an inactive transaction succeeds. -/
theorem stmQuiesce_spec {φ : Own → Prop} {J : Assn (protocol cfg : RG (State Tid Addr) Tid) p}
    {b : Bool} (hφ : ∀ o, φ o → o.tx.status.isActive = b) :
    Triple (protocol cfg) p (has φ) (stmQuiesce p) (fun ok => has φ ⊓
      .imp (ok = true) (.ex fun threads => quiesced threads (· ∈ threads)) ⊓
      .pure (b = false → ok = true)) J := by
  refine read_spec (fun tx => has φ ⊓ .pure (tx.status.isActive = b))
    (fun s _ h => ⟨h, hφ _ h⟩) fun tx => .of_fact (fun _ _ h => h.2) fun htx => ?_
  rw [htx]
  refine .bind (R := fun ok => (if ok then (has fun o => φ o ∧ ¬ o.rolls) ⊓ holdsMutex
    else has φ) ⊓ .pure (b = false → ok = true)) ?_ fun ok => ?_
  · unfold ownMutex
    refine .ite (fun hactive => ?_) fun hactive => ?_
    · refine .pre ((tryLockMutex_spec (φ := φ) (F := .pure True) fun _ h => h).post
        (fun ok s _ h => ⟨?_, fun h => by simp [h] at hactive⟩) fun _ _ h => h) fun s _ h =>
        ⟨h.1, trivial⟩
      cases ok with
      | true => exact ⟨⟨h.1.1.1, h.1.1.2.2⟩, h.2⟩
      | false => exact h.1
    · refine .bind (.pre (lockMutex_spec (φ := φ) (F := .pure True) fun _ h => h) fun s _ h =>
        ⟨h.1, trivial⟩) fun _ => .of_ret fun s _ h => ⟨⟨⟨h.1.1.1, h.1.1.2.2⟩, h.2⟩, fun _ => rfl⟩
  · cases ok with
    | false => exact .of_ret fun s _ h => ⟨⟨h.1, nofun⟩, h.2⟩
    | true =>
      refine act_spec (fun _ => has φ ⊓ locked fun quiesce _ _ => quiesce = 2)
        (fun s hs h => ⟨.quiesce h.1.2.1 h.1.1.2, h.1.1.1, h.1.2.1, rfl⟩) fun _ => ?_
      refine read_spec (fun threads => has φ ⊓ quiesced threads fun _ => False)
        (fun s _ h => ⟨h.1, ⟨h.2.1, h.2.2, rfl⟩, fun _ _ => nofun⟩) fun threads => ?_
      refine .bind (waitInactive_spec threads _) fun _ => .of_ret fun s _ h => ⟨⟨h.1, fun _ => ?_⟩,
        fun _ => rfl⟩
      exact ⟨threads, h.2.1, fun t htp ht => h.2.2 t htp (.inr ht)⟩

end TinyStm.Quiesce
