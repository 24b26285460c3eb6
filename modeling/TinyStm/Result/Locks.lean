import TinyStm.Result.NoRetry

/-!
# Locks and write sets

With write-back a lock is acquired, kept and released: by a commit that has been decided, after the
words that the lock covers, or by a rollback, to the word that it had. `LockStep` says so of one step
of a thread. A commit that has begun to release its locks, and likewise a rollback, goes on until it
holds none. Between two calls the entries of WRITE_BACK_ETL form a chain for each lock held, and a
thread of WRITE_BACK_CTL holds none.
-/

namespace TinyStm

section
variable {Tid Addr Lock : Type} {w : ℕ}

/-- A step that acquires no lock. -/
def Frees (s s' : State Tid Addr Lock w) : Prop :=
  ∀ ℓ, s'.locks ℓ = s.locks ℓ ∨ ∃ l, s'.locks ℓ = .free l

/-- The commit of `p` with timestamp `t` has been decided, and it is not in the history `h`. -/
def State.Decided (h : History Tid Addr w) (p : Tid) (t : ℕ) (s : State Tid Addr Lock w) : Prop :=
  (s.txs p).phase = .installing t ∧
    ∃ c ∈ s.commits, c ∉ h ∧ c.tid = p ∧ c.ts = t ∧ c.update = true

/-- What a step of thread `p` does to a lock: nothing, or it acquires a free one, or a commit that is
not in `h` releases it, with the words that it covers in memory, or a rollback restores its word. -/
inductive LockTurn [DecidableEq Addr] (cfg : Config Addr Lock) (m₀ : Mem Addr w)
    (h : History Tid Addr w) (p : Tid) (s s' : State Tid Addr Lock w) (ℓ : Lock) : Prop
  | keep : s'.locks ℓ = s.locks ℓ → (∀ q i, s.locks ℓ = .owned q i → s'.saved ℓ = s.saved ℓ) →
      LockTurn cfg m₀ h p s s' ℓ
  | acquire {l i : ℕ} : s.locks ℓ = .free l → s'.locks ℓ = .owned p i → s'.saved ℓ = l →
      (s'.txs p).phase = .running → LockTurn cfg m₀ h p s s' ℓ
  | install {i t : ℕ} : s.locks ℓ = .owned p i → s.Decided h p t →
      s'.locks ℓ = .free (lockSetTimestamp t) →
      (∀ a, cfg.getLock a = ℓ → s'.mem a = s'.committed m₀ a) → LockTurn cfg m₀ h p s s' ℓ
  | restore {i : ℕ} : s.locks ℓ = .owned p i → (s.txs p).phase = .aborting →
      s'.locks ℓ = .free (s.saved ℓ) → LockTurn cfg m₀ h p s s' ℓ

/-- What a step of thread `p` does to locks and words. A word is stored only under its lock, by a
commit that is not in `h`. A commit is decided once it has its timestamp, and stays so until it has
released its locks; a rollback goes on until no lock is held. -/
structure LockStep [DecidableEq Addr] (cfg : Config Addr Lock) (m₀ : Mem Addr w)
    (h : History Tid Addr w) (p : Tid) (s s' : State Tid Addr Lock w) : Prop where
  turn : ∀ ℓ, LockTurn cfg m₀ h p s s' ℓ
  word : ∀ a, s'.mem a = s.mem a ∨
    ∃ i t, s.locks (cfg.getLock a) = .owned p i ∧ s.Decided h p t
  decide : ∀ t, (s'.txs p).phase = .installing t →
    (s.txs p).phase = .installing t ∨ (s.txs p).phase = .ticket t
  install : ∀ t ℓ i, (s.txs p).phase = .installing t → s.locks ℓ = .owned p i →
    (s'.txs p).phase = .installing t ∨ ∃ l, s'.locks ℓ = .free l
  abort : (s.txs p).phase = .aborting →
    (s'.txs p).phase = .aborting ∨ ∀ ℓ i, s'.locks ℓ ≠ .owned p i

end

/-! ## What releases locks -/

section
variable {Tid Addr Lock : Type} {w : ℕ} [DecidableEq Tid] [DecidableEq Addr] [DecidableEq Lock]
  {p : Tid}

omit [DecidableEq Tid] [DecidableEq Addr] [DecidableEq Lock] in
theorem Frees.refl (s : State Tid Addr Lock w) : Frees s s := fun _ => .inl rfl

omit [DecidableEq Tid] [DecidableEq Addr] in
theorem storeLock_frees [DecidableEq Tid] [DecidableEq Addr] (lock : Lock) (l : ℕ) :
    (storeLock lock l : M Tid Addr Lock w Unit).Within Frees := by
  refine Prog.within_atomic fun s ℓ => ?_
  by_cases hℓ : ℓ = lock
  · subst hℓ
    exact .inr ⟨l, Function.update_self ..⟩
  · exact .inl (Function.update_of_ne hℓ ..)

theorem dropLast_frees (e : WEntry Addr Lock w) (l : ℕ) :
    (dropLast e l : M Tid Addr Lock w Unit).Within Frees := by
  unfold dropLast
  split
  · exact storeLock_frees e.lock l
  · trivial

/-- The rollback of WRITE_BACK_ETL acquires no lock. -/
theorem stmWbetlRollback_frees :
    (stmWbetlRollback p : M Tid Addr Lock w Unit).Within Frees := by
  refine Prog.within_access Frees.refl fun tx => ?_
  generalize tx.wSet.entries = es
  induction es with
  | nil => trivial
  | cons e es ih => exact (dropLast_frees e _).bind fun _ => ih

/-- The rollback of WRITE_BACK_CTL acquires no lock. -/
theorem stmWbctlRollback_frees :
    (stmWbctlRollback p : M Tid Addr Lock w Unit).Within Frees := by
  refine Prog.within_access Frees.refl fun tx => ?_
  generalize tx.wSet.entries.reverse = es
  generalize tx.wSet.nbAcquired = n
  induction es generalizing n with
  | nil =>
    cases n with
    | zero => trivial
    | succ n => exact Prog.within_atomic fun s _ => .inl rfl
  | cons e es ih =>
    cases n with
    | zero => trivial
    | succ n =>
      change (if e.noDrop then _ else _ : M Tid Addr Lock w Unit).Within Frees
      split
      · exact ih (n + 1)
      · exact Prog.within_access (fun s _ => .inl rfl) fun _ =>
          (storeLock_frees e.lock _).bind fun _ => ih n

/-- A commit of WRITE_BACK_ETL that writes back acquires no lock. -/
theorem wbetlInstall_frees (es : List (WEntry Addr Lock w)) (t : ℕ) :
    (wbetlInstall es t : M Tid Addr Lock w Unit).Within Frees := by
  induction es with
  | nil => trivial
  | cons e es ih =>
    refine Prog.Within.bind ?_ fun _ => (dropLast_frees e _).bind fun _ => ih
    unfold storeWordIf
    split
    · exact Prog.within_atomic fun s _ => .inl rfl
    · trivial

/-- A commit of WRITE_BACK_CTL that writes back acquires no lock. -/
theorem wbctlInstall_frees (es : List (WEntry Addr Lock w)) (t : ℕ) :
    (wbctlInstall es t : M Tid Addr Lock w Unit).Within Frees := by
  have hstore (a : Addr) (x : BitVec w) :
      (storeWord a x : M Tid Addr Lock w Unit).Within Frees :=
    Prog.within_atomic fun s _ => .inl rfl
  induction es with
  | nil => trivial
  | cons e es ih =>
    refine Prog.Within.bind ?_ fun _ => Prog.Within.bind ?_ fun _ => ih
    · unfold wbctlStore
      split
      · exact hstore _ _
      · split
        · exact Prog.within_access Frees.refl fun _ => hstore _ _
        · trivial
    · unfold wbctlDrop
      split
      · exact storeLock_frees e.lock _
      · trivial

end

/-! ## What a step does to the view -/

namespace View

variable {Tid Addr Lock : Type} {w : ℕ} [DecidableEq Addr] {S : Setting Tid Addr Lock w}
  {v v' : View Tid Addr Lock w} {p q : Tid} {h : History Tid Addr w}

/-- Where no transaction uses write-through, no lock word has an incarnation number. -/
theorem Inv.plain_lastWord (hv : v.Inv S)
    (hwt : ∀ attr, S.attrs attr → S.cfg.designOf attr ≠ .writeThrough) (ℓ : Lock) :
    Plain (v.lastWord ℓ) := by
  rcases hv.plain ℓ with h | ⟨attr, ha, hd⟩
  · exact h
  · exact (hwt attr ha hd).elim

/-- A commit of `p` that has been decided is not in the history `h`, which has been reached before. -/
structure Since (h : History Tid Addr w) (p : Tid) (v : View Tid Addr Lock w) : Prop where
  before : ∀ c ∈ h, c ∈ v.commits
  new : ∀ t, v.phase p = .installing t →
    ∃ c ∈ v.commits, c ∉ h ∧ c.tid = p ∧ c.ts = t ∧ c.update = true

/-- The step in which `p` decides its commit records a commit with a new timestamp. -/
theorem Guar.since (hg : Guar S q v v') (hv : v.Inv S) (hv' : v'.Inv S) (hs : v.Since h p) :
    v'.Since h p where
  before c hc := hg.commits c (hs.before c hc)
  new t ht := by
    have hold (hp : v.phase p = .installing t) : ∃ c ∈ v'.commits,
        c ∉ h ∧ c.tid = p ∧ c.ts = t ∧ c.update = true := by
      obtain ⟨c, hc, hc'⟩ := hs.new t hp
      exact ⟨c, hg.commits c hc, hc'⟩
    by_cases hpq : p = q
    · subst hpq
      rcases hg.decide t ht with hp | hp
      · exact hold hp
      · obtain ⟨c, hc, htid, hts, hup⟩ := hv'.decided p t ht
        refine ⟨c, hc, fun hch => ?_, htid, hts, hup⟩
        exact (hv.ticket p t hp).2.2 c (hs.before c hch) hup hts
    · exact hold ((hg.phase p hpq).symm.trans ht)

end View

section
variable {Tid Addr Lock : Type} {w : ℕ} [DecidableEq Addr]

/-- A step that the protocol of a write-back design allows. -/
theorem lockStep_of_guar {S : Setting Tid Addr Lock w} {p : Tid} {h : History Tid Addr w}
    {s s' : State Tid Addr Lock w}
    (hwt : ∀ attr, S.attrs attr → S.cfg.designOf attr ≠ .writeThrough) (hs : s.view.Inv S)
    (hs' : s'.view.Inv S) (hg : s.view.Guar S p s'.view) (hsince : s.view.Since h p) :
    LockStep S.cfg S.mem₀ h p s s' := by
  refine ⟨fun ℓ => ?_, fun a => ?_, hg.decide, fun t ℓ i ht hl => ?_,
    fun ha => (hg.abort ha).imp_right fun h ℓ i hl => h ℓ ⟨i, hl⟩⟩
  · cases hg.turn ℓ with
    | keep hl hsv => exact .keep hl fun q i hi => hsv q ⟨i, hi⟩
    | acquire hl hl' hsv =>
      exact .acquire hl hl' hsv ((hg.acquire ℓ ⟨_, hl'⟩).resolve_left (View.not_holds_of_free hl))
    | release hl hl' hr =>
      by_cases hi : ∃ t, (s.txs p).phase = .installing t
      · obtain ⟨t, ht⟩ := hi
        refine .install hl ⟨ht, hsince.new t ht⟩ (hl'.trans (congrArg _ (hr.1 t ht))) ?_
        rintro a rfl
        exact hs'.mem_of_free hl'
      · obtain ⟨hab, hr⟩ := hr.2 fun t ht => hi ⟨t, ht⟩
        have hword : lockSetTimestamp (s.view.lastTs ℓ) = s.view.saved ℓ := by
          rw [← View.lastWord_of_owned hl]
          exact hs.plain_lastWord hwt ℓ
        exact .restore hl hab
          (hl'.trans (congrArg _ ((hr (hwt _ (hs.owner p ℓ ⟨_, hl⟩))).trans hword)))
  · by_cases hq : s.view.Quiet S (S.cfg.getLock a)
    · exact .inl (hg.still a hq)
    · refine (hg.mem a).imp_right fun ⟨i, hi⟩ => ?_
      rw [View.quiet_of_owned ⟨i, hi⟩] at hq
      obtain ⟨t, ht⟩ := not_forall_not.1 fun h => hq ⟨hwt _ (hs.owner p _ ⟨i, hi⟩), h⟩
      exact ⟨i, t, hi, ht, hsince.new t ht⟩
  · by_contra hne
    obtain ⟨hph, hfree⟩ := not_or.1 hne
    -- a lock that is kept by a thread that is no longer decided is due too early
    cases hg.turn ℓ with
    | keep hl' hsv =>
      have hlast := View.lastTs_congr hl' hsv
      have hdue : s'.view.due ℓ < t := by
        rw [View.due_of_owned (hl'.trans hl) fun t' ht' => ?_, hlast]
        · exact hs.late ℓ p i t hl (.inr ht)
        · rcases hg.decide t' ht' with h | h
          · rw [show s.view.phase p = .installing t from ht] at h
            exact hph (Phase.installing.inj h ▸ ht')
          · rw [show s.view.phase p = .installing t from ht] at h
            cases h
      have := hg.due ℓ
      rw [View.due_of_installing hl ht] at this
      omega
    | acquire hl' => exact nomatch hl.symm.trans hl'
    | release _ hl' => exact hfree ⟨_, hl'⟩

end

/-! ## Runs -/

section
variable {Tid Addr Lock : Type} {w : ℕ} [DecidableEq Tid] [DecidableEq Addr] [DecidableEq Lock]
  {cfg : Config Addr Lock} {m₀ : Mem Addr w} {size : ℕ}
  {C : Tid → Cmd Addr w → State Tid Addr Lock w → Prop}
  {T U : Pool (State Tid Addr Lock w) Tid} {p : Tid}

/-- The next step of a thread is one that the protocol allows. -/
theorem Run.next_guar {S : Setting Tid Addr Lock w}
    (hC : ∀ p cmd s, s.view.Inv S → boundary S p s → C p cmd s → Admits S p cmd s)
    (h : Run S.cfg S.mem₀ size C T) (ho : ∀ v, S.obs v) (p : Tid) :
    (T.next (exec S.cfg) (.exec p)).st.view.Inv S ∧
      T.st.view.Guar S p (T.next (exec S.cfg) (.exec p)).st.view := by
  obtain ⟨hinv, hB⟩ := Run.sound hC h fun _ _ _ => ho _
  obtain ⟨P, ht, hP⟩ := hB p
  obtain ⟨hinv', hg, -⟩ := ht.step ⟨hinv, ho _⟩ hP
  exact ⟨hinv', hg.2⟩

/-- What a call of thread `p` does to locks and words: `T` is a pool before the call, or at its start,
and `U` one during the call. -/
theorem Run.lockStep (hm : cfg.design ≠ .modular) (hwt : cfg.design ≠ .writeThrough)
    (hC : ∀ q cmd s, C q cmd s →
      AnyCall cfg cfg.design q cmd s ∧ (cfg.design ≠ .writeBackCtl → TidyCall cfg q cmd s))
    (hT : Run cfg m₀ size C T) (hp : (T.ctl p).Done) (hU : Pool.Reaches (exec cfg) C T U) :
    LockStep cfg m₀ T.st.commits p U.st (U.next (exec cfg) (.exec p)).st := by
  have hadm : ∀ q cmd s, s.view.Inv (anySetting cfg hm m₀ : Setting Tid Addr Lock w) →
      boundary (anySetting cfg hm m₀) q s → C q cmd s → Admits (anySetting cfg hm m₀) q cmd s :=
    fun q cmd s _ hB hk => admits_of_any q cmd s hB (hC q cmd s hk).1 (hC q cmd s hk).2
  have hsound := Run.sound (S := anySetting cfg hm m₀) hadm (hT.trans hU) fun _ _ _ => trivial
  obtain ⟨hinv', hg⟩ := Run.next_guar (S := anySetting cfg hm m₀) hadm (hT.trans hU)
    (fun _ => trivial) p
  -- what `p` has decided since `T` is new
  have hsince : U.st.view.Since T.st.commits p := by
    refine Run.sound_rel (S := anySetting cfg hm m₀)
      (R := fun s t => s.view.Since T.st.commits p → t.view.Since T.st.commits p)
      hadm (fun _ h => h) (fun _ _ _ h h' hs => h' (h hs))
      (fun _ _ _ hv hv' hg => hg.2.since hv hv') hT hU (fun _ => trivial)
      ⟨fun _ h => h, fun t ht => ?_⟩
    have hsT := Run.sound (S := anySetting cfg hm m₀) hadm hT fun _ _ _ => trivial
    have hB := (hsT.2 p).of_done ⟨hsT.1, trivial⟩ hp
    have hrun : T.st.view.phase p = .running := by
      rcases hB with ⟨tx, hidle, htx, -⟩ | ⟨tx, hact, htx, -⟩
      · exact (congrArg StmTx.phase htx).trans hidle.phase
      · exact (congrArg StmTx.phase htx).trans hact.phase
    rw [hrun] at ht
    cases ht
  exact lockStep_of_guar (fun attr _ => (designOf_static hm attr).trans_ne hwt) hsound.1 hinv' hg hsince

/-! ## WRITE_BACK_ETL -/

/-- The entries of thread `p` form one chain for each lock that it holds, which is linked in the order
of the entries, the lock points to its first entry, and the entries have the version that the lock had
when it was acquired. -/
structure ChainPerLock (cfg : Config Addr Lock) (p : Tid) (s : State Tid Addr Lock w) : Prop where
  chained : Chained (s.txs p).wSet.entries
  lock : ∀ e ∈ (s.txs p).wSet.entries, e.lock = cfg.getLock e.addr
  addr : (s.txs p).wSet.entries.Pairwise fun e f => e.addr ≠ f.addr
  held : ∀ ℓ, (∃ i, s.locks ℓ = .owned p i) ↔ ∃ e ∈ (s.txs p).wSet.entries, e.lock = ℓ
  first : ∀ ℓ i, s.locks ℓ = .owned p i →
    (∃ e, (s.txs p).wSet.entries[i]? = some e ∧ e.lock = ℓ) ∧
      ∀ j f, j < i → (s.txs p).wSet.entries[j]? = some f → f.lock ≠ ℓ
  last : ∀ ℓ i, s.locks ℓ = .owned p i →
    ∃! j : ℕ, ∃ e : WEntry Addr Lock w,
      (s.txs p).wSet.entries[j]? = some e ∧ e.lock = ℓ ∧ e.next = none
  version : ∀ e ∈ (s.txs p).wSet.entries, e.version = lockGetTimestamp (s.saved e.lock)

omit [DecidableEq Tid] [DecidableEq Addr] [DecidableEq Lock] in
/-- A chain has one end. -/
theorem Chained.existsUnique_last {es : List (WEntry Addr Lock w)} (h : Chained es) {ℓ : Lock}
    (hℓ : ∃ e ∈ es, e.lock = ℓ) :
    ∃! j : ℕ, ∃ e : WEntry Addr Lock w, es[j]? = some e ∧ e.lock = ℓ ∧ e.next = none := by
  obtain ⟨e, he, rfl⟩ := hℓ
  obtain ⟨i, hi⟩ := List.mem_iff_getElem?.1 he
  obtain ⟨f, hf, hn, hl⟩ := h.exists_last hi
  obtain ⟨j, hj⟩ := List.mem_iff_getElem?.1 hf
  refine ⟨j, ⟨f, hj, hl, hn⟩, ?_⟩
  rintro k ⟨g, hk, hgl, hgn⟩
  have hfnext := h j f hj
  have hgnext := h k g hk
  rw [hn] at hfnext
  rw [hgn] at hgnext
  rcases lt_trichotomy k j with hlt | heq | hlt
  · exact (hgnext j f hlt hj (hl.trans hgl.symm)).elim
  · exact heq
  · exact (hfnext k g hlt hk (hgl.trans hl.symm)).elim

omit [DecidableEq Tid] [DecidableEq Lock] in
/-- The write set of an active transaction of WRITE_BACK_ETL. -/
theorem chainPerLock_of_ws {S : Premises Addr Lock w} {s : State Tid Addr Lock w}
    (h : s.view.EtlWs S p (s.txs p)) : ChainPerLock S.cfg p s where
  chained := h.chains.chained
  lock := h.chains.lock
  addr := h.chains.addr
  held := h.chains.holds
  first := h.chains.head
  last ℓ i hi := h.chains.chained.existsUnique_last ((h.chains.holds ℓ).1 ⟨i, hi⟩)
  version e he := by
    obtain ⟨i, hi⟩ := h.chains.held he
    rw [h.version e he, View.lastTs, View.lastWord_of_owned hi]
    rfl

/-- The locks and the write set of thread `p` between two calls. -/
def TidyLocks (cfg : Config Addr Lock) (p : Tid) (s : State Tid Addr Lock w) : Prop :=
  if (s.txs p).status.isActive then ChainPerLock cfg p s else ∀ ℓ i, s.locks ℓ ≠ .owned p i

/-- In every run of WRITE_BACK_ETL in which no store of a `no_retry` transaction needs a new entry
while its write set is full, the entries of an active transaction form a chain for each lock that it
holds, and each lock is released once: by a commit, after the words that it covers, or by a rollback,
to the word that it had. -/
theorem wbetl_chain_per_lock (hd : cfg.design = .writeBackEtl)
    (hT : Run cfg m₀ size
      (fun p cmd s => AnyCall cfg .writeBackEtl p cmd s ∧ RoomyStore cfg p cmd s) T)
    (hp : (T.ctl p).Done) (hU : Pool.Reaches (exec cfg)
      (fun p cmd s => AnyCall cfg .writeBackEtl p cmd s ∧ RoomyStore cfg p cmd s) T U) :
    ((U.ctl p).Done → TidyLocks cfg p U.st) ∧
      LockStep cfg m₀ T.st.commits p U.st (U.next (exec cfg) (.exec p)).st ∧
      (stmWbetlRollback p : M Tid Addr Lock w Unit).Within Frees ∧
      ∀ es t, (wbetlInstall es t : M Tid Addr Lock w Unit).Within Frees := by
  have hm : cfg.design ≠ .modular := by rw [hd]; decide
  have hcalls : ∀ (q : Tid) (cmd : Cmd Addr w) (s : State Tid Addr Lock w),
      AnyCall cfg .writeBackEtl q cmd s ∧ RoomyStore cfg q cmd s →
      AnyCall cfg cfg.design q cmd s ∧ (cfg.design ≠ .writeBackCtl → TidyCall cfg q cmd s) :=
    fun q cmd s h => ⟨by rw [hd]; exact h.1, fun _ => ⟨h.2, fun hwt => nomatch hd.symm.trans hwt⟩⟩
  refine ⟨fun hdone => ?_, Run.lockStep hm (by rw [hd]; decide) hcalls hT hp hU,
    stmWbetlRollback_frees, wbetlInstall_frees⟩
  have hsound := Run.sound (S := anySetting cfg hm m₀)
    (fun q cmd s _ hB hk => admits_of_any q cmd s hB (hcalls q cmd s hk).1 (hcalls q cmd s hk).2)
    (hT.trans hU) fun _ _ _ => trivial
  have hB := (hsound.2 p).of_done ⟨hsound.1, trivial⟩ hdone
  unfold TidyLocks
  cases ha : (U.st.txs p).status.isActive with
  | false => exact noLocks_of_boundary hB ha
  | true =>
    rcases hB with ⟨tx, hidle, htx, -⟩ | ⟨tx, hact, htx, -, hws⟩
    · rw [htx, hidle.inactive] at ha
      cases ha
    · have hws : U.st.view.Ws (anySetting cfg hm m₀) p tx := hws
      simp only [View.Ws, anySetting, designOf_static hm, hd] at hws
      exact chainPerLock_of_ws (htx ▸ hws)

/-- Four words in two stripes. -/
def twoStripes (a : Fin 4) : Fin 2 := if a.val < 2 then 0 else 1

/-- Two words of a stripe are stored, and one of the other. -/
def chains : List (Fin 1 × Cmd (Fin 4) 8) :=
  [(0, .start .readWrite), (0, .store 0 1), (0, .store 1 2), (0, .store 2 3)]

set_option maxRecDepth 10000 in
theorem wbetl_chain_per_lock_chains : TidyLocks (.plain .writeBackEtl twoStripes) 0
    (after (.plain .writeBackEtl twoStripes) 4 30 chains).st :=
  have h : Run (.plain .writeBackEtl twoStripes) (fun _ => 0#8) 4 (fun p cmd s =>
      AnyCall (.plain .writeBackEtl twoStripes) .writeBackEtl p cmd s ∧
        RoomyStore (.plain .writeBackEtl twoStripes) p cmd s)
      (after (.plain .writeBackEtl twoStripes) 4 30 chains) := run_after (by decide)
  have hdone : ((after (.plain .writeBackEtl twoStripes) 4 30 chains).ctl 0).Done := by
    decide
  (wbetl_chain_per_lock rfl h hdone .refl).1 hdone

/-- The second store of a transaction that is not retried needs an entry in a full write set. -/
def fullWriteSet : List (Fin 1 × Cmd (Fin 3) 8) :=
  [(0, .start .once), (0, .store 2 5), (0, .store 0 7)]

set_option maxRecDepth 10000 in
/-- The store returns with the lock of its word, although the transaction has aborted. -/
theorem wbetl_not_chain_per_lock : ∃ T : Pool (State (Fin 1) (Fin 3) (Fin 3) 8) (Fin 1),
    Run (.plain .writeBackEtl id) (fun _ => 0#8) 1 (AnyCall (.plain .writeBackEtl id) .writeBackEtl)
      T ∧ (T.ctl 0).Done ∧ ¬ TidyLocks (.plain .writeBackEtl id) 0 T.st := by
  refine ⟨after (.plain .writeBackEtl id) 1 30 fullWriteSet, run_after (by decide),
    by decide, fun h => ?_⟩
  have hinactive : ((after (.plain .writeBackEtl id) 1 30 fullWriteSet).st.txs 0).status.isActive =
      false := by decide
  rw [TidyLocks, hinactive] at h
  exact h 0 1 (by decide)

/-! ## WRITE_BACK_CTL -/

/-- In every run of WRITE_BACK_CTL a thread holds locks only during a commit. A commit that fails stores
no word, restores the words of the locks that it has acquired and reads nothing beyond its write set;
one that succeeds releases each lock with its timestamp, after the words that it covers. -/
theorem wbctl_commit_traceless (hd : cfg.design = .writeBackCtl)
    (hT : Run cfg m₀ size (AnyCall cfg .writeBackCtl) T) (hp : (T.ctl p).Done)
    (hU : Pool.Reaches (exec cfg) (AnyCall cfg .writeBackCtl) T U) :
    U.st.overrun = false ∧ ((U.ctl p).Done → ∀ ℓ i, U.st.locks ℓ ≠ .owned p i) ∧
      LockStep cfg m₀ T.st.commits p U.st (U.next (exec cfg) (.exec p)).st ∧
      ((∀ c ∈ U.st.commits, c.tid = p → c ∈ T.st.commits) →
        (U.next (exec cfg) (.exec p)).st.mem = U.st.mem ∧
        ∀ ℓ i, U.st.locks ℓ = .owned p i →
          (U.next (exec cfg) (.exec p)).st.locks ℓ = .owned p i ∨
          (U.next (exec cfg) (.exec p)).st.locks ℓ = .free (U.st.saved ℓ)) ∧
      (stmWbctlRollback p : M Tid Addr Lock w Unit).Within Frees ∧
      ∀ es t, (wbctlInstall es t : M Tid Addr Lock w Unit).Within Frees := by
  have hm : cfg.design ≠ .modular := by rw [hd]; decide
  have hcalls : ∀ (q : Tid) (cmd : Cmd Addr w) (s : State Tid Addr Lock w),
      AnyCall cfg .writeBackCtl q cmd s →
      AnyCall cfg cfg.design q cmd s ∧ (cfg.design ≠ .writeBackCtl → TidyCall cfg q cmd s) :=
    fun q cmd s h => ⟨by rw [hd]; exact h, fun hctl => (hctl hd).elim⟩
  have hsound := Run.sound (S := anySetting cfg hm m₀)
    (fun q cmd s _ hB hk => admits_of_any q cmd s hB (hcalls q cmd s hk).1 (hcalls q cmd s hk).2)
    (hT.trans hU) fun _ _ _ => trivial
  have hstep := Run.lockStep hm (by rw [hd]; decide) hcalls hT hp hU
  have hundecided (h : ∀ c ∈ U.st.commits, c.tid = p → c ∈ T.st.commits) (t : ℕ) :
      ¬ U.st.Decided T.st.commits p t := by
    rintro ⟨-, c, hc, hnew, htid, -⟩
    exact hnew (h c hc htid)
  refine ⟨hsound.1.inside, fun hdone ℓ i hl => ?_, hstep, fun h => ⟨funext fun a => ?_, ?_⟩,
    stmWbctlRollback_frees, wbctlInstall_frees⟩
  · have hB := (hsound.2 p).of_done ⟨hsound.1, trivial⟩ hdone
    rcases hB with ⟨tx, -, -, hno⟩ | ⟨tx, -, -, -, hws⟩
    · exact hno ℓ ⟨i, hl⟩
    · have hws : U.st.view.Ws (anySetting cfg hm m₀) p tx := hws
      simp only [View.Ws, anySetting, designOf_static hm, hd] at hws
      exact hws.noLocks ℓ ⟨i, hl⟩
  · rcases hstep.word a with h' | ⟨i, t, -, hdec⟩
    · exact h'
    · exact (hundecided h t hdec).elim
  · intro ℓ i hl
    cases hstep.turn ℓ with
    | keep hl' => exact .inl (hl'.trans hl)
    | acquire hl' => cases hl.symm.trans hl'
    | install _ hdec => exact (hundecided h _ hdec).elim
    | restore _ _ hl' => exact .inr hl'

/-- A transaction of thread 1 has loaded a word that one of thread 0 has stored since. -/
def staleRead : List (Fin 2 × Cmd (Fin 4) 8) :=
  [(1, .start .readWrite), (1, .load 0), (1, .store 1 2), (1, .store 3 4), (1, .store 2 3),
    (0, .start .readWrite), (0, .store 0 1), (0, .commit)]

/-- Its commit has acquired two locks. -/
def staleCommit : List (Pool.Label (Fin 2) (Cmd (Fin 4) 8)) :=
  .invoke 1 .commit :: List.replicate 26 (.exec 1)

set_option maxRecDepth 10000 in
theorem wbctl_commit_traceless_stale :
    (Pool.follow (exec (.plain .writeBackCtl twoStripes))
      (after (.plain .writeBackCtl twoStripes) 4 30 staleRead) staleCommit).st.overrun = false :=
  have hT : Run (.plain .writeBackCtl twoStripes) (fun _ => 0#8) 4
      (AnyCall (.plain .writeBackCtl twoStripes) .writeBackCtl)
      (after (.plain .writeBackCtl twoStripes) 4 30 staleRead) := run_after (by decide)
  have hdone : ((after (.plain .writeBackCtl twoStripes) 4 30 staleRead).ctl 1).Done := by
    decide
  (wbctl_commit_traceless rfl hT hdone (Pool.Follows.reaches (by decide))).1

end

end TinyStm
