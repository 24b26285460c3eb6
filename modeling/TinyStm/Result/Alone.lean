import TinyStm.Conc.Alone
import TinyStm.Proof.Alone
import TinyStm.Result.AtomicRuns

/-!
# Progress of a transaction that runs alone

A block that is started while no lock is held, and that is not interrupted by other threads, commits
at the first attempt, whatever transactions the other threads have under way. Each access of the
attempt finds the locks free or its own and no version newer than the snapshot, so no access jumps
back and the commit need not validate. What the block loads is read off the invariant of the
library, which says that the loads are those of the committed memory.
-/

namespace TinyStm

variable {Tid Addr Lock ι : Type} {w : ℕ} [DecidableEq Tid] [DecidableEq Addr] [DecidableEq Lock]
  {cfg : Config Addr Lock} {d : Design} {m₀ : Mem Addr w} {size : ℕ}
  {blocks : ι → AtomicBlock Addr w} {T U : Pool (State Tid Addr Lock w) Tid} {p : Tid}
  {k : Control Addr w} {L : History Tid Addr w} {N n : ℕ} {s : State Tid Addr Lock w}

omit [DecidableEq Tid] in
/-- The calls of a client are admitted. -/
theorem admits_of_client {m₀ : Mem Addr w} (p : Tid) (cmd : Cmd Addr w) (s : State Tid Addr Lock w)
    (_ : s.view.Inv (hintSetting cfg d m₀ : Setting Tid Addr Lock w))
    (hB : boundary (hintSetting cfg d m₀) p s) (h : ClientCall cfg d blocks p cmd s) : Admits (hintSetting cfg d m₀) p cmd s :=
  admits_of_hint p cmd s (fun ha => (active_of_boundary hB ha).attr) h.1.1 h.1.2.1 h.1.2.2

/-- The loads so far returned the words of the committed memory. -/
theorem Run.solo_consistent (hT : Run cfg m₀ size (ClientCall cfg d blocks) T)
    (hdone : (T.ctl p).Done) (h : Solo d p k L N n T.st) (hk : k.Plain cfg d) :
    k.trace.Consistent (History.memAt m₀ L N) := by
  obtain ⟨hinv, hout⟩ := Run.sound (S := hintSetting cfg d m₀) admits_of_client hT
    fun _ _ _ => trivial
  have hstatus : (T.st.txs p).status = .active :=
    (congrArg Control.status h.control).trans hk.status
  obtain ⟨tx, hidle, htx, -⟩ | ⟨tx, hact, htx, ⟨m, hsnap⟩, -⟩ :=
    (hout p).of_done ⟨hinv, trivial⟩ hdone
  · have hinactive := hidle.inactive
    rw [← htx, hstatus] at hinactive
    cases hinactive
  · subst htx
    have hblind : ¬ View.Blind (hintSetting cfg d m₀ : Setting Tid Addr Lock w) (T.st.txs p) :=
      View.not_blind_of_hint trivial
    have hcur : T.st.view.cur (hintSetting cfg d m₀ : Setting Tid Addr Lock w) = History.memAt m₀ L N := by
      rw [← h.commits, ← h.clock]
      rfl
    have htrace : (T.st.txs p).trace = k.trace := congrArg Control.trace h.control
    rw [← htrace]
    refine (hsnap.cons hblind).congr fun a ha => ?_
    obtain ⟨-, heq, -⟩ | ⟨-, hirr, -⟩ | ⟨-, -, hfixed, -⟩ := hsnap.good hblind a ha
    · rw [← heq, hcur]
    · have := h.irrevocable hk
      omega
    · have heq : T.st.view.memAt (hintSetting cfg d m₀) (T.st.txs p).end_ a = m a := hfixed.eq
      rw [← heq, h.end_, ← hcur, View.cur]
      congr 1
      exact h.clock.symm

omit [DecidableEq Tid] in
/-- The calls of an attempt that runs alone are admitted. -/
theorem Solo.clientCall (h : Solo d p k L N n s) (hk : k.Plain cfg d) {cmd : Cmd Addr w}
    (hroom : d ≠ .writeBackCtl → cmd.target ≠ none → 0 < n) (hattr : cmd.attr? = none)
    (hirr : cmd ≠ .setIrrevocable) (htoken : TokenKept cfg p cmd s)
    (hblock : BlockCall blocks p cmd s) :
    ClientCall cfg d blocks p cmd s := by
  have hactive : (s.txs p).status.isActive = true := by
    have hstatus : (s.txs p).status = .active := (congrArg Control.status h.control).trans hk.status
    rw [hstatus]
    rfl
  refine ⟨⟨⟨?_, ?_, fun h => absurd h hirr⟩, fun _ hro => ?_, fun hd x hx hfull => ?_,
    fun hd x _ _ e he hmask => ?_, fun _ a _ hne => ?_, fun h => absurd h hirr, htoken⟩,
    hblock⟩
  · cases cmd with
    | start attr => cases hattr
    | setIrrevocable => exact absurd rfl hirr
    | load a => exact hactive
    | store a x => exact hactive
    | store2 a x y => exact hactive
    | commit => exact hactive
    | abort reason => exact hactive
  · rw [hattr]
    simp
  · have hreadOnly : (s.txs p).attr.readOnly = false :=
      (congrArg (fun k => k.attr.readOnly) h.control).trans hk.readOnly
    rw [hreadOnly] at hro
    cases hro
  · have := h.room hd
    have := hroom hd (by simp [Option.mem_def.1 hx])
    omega
  · exact absurd hmask (h.masks hd e (List.mem_of_find?_eq_some he))
  · exact absurd (h.irrevocable hk) hne

/-- A run of a block from where it has got to, alone. -/
theorem Run.solo_block {i : ι} {c : AtomicBlock Addr w}
    (hU : Run cfg m₀ size (ClientCall cfg d blocks) U) (hdone : (U.ctl p).Done)
    (h : Solo d p k L N n U.st) (hk : k.Plain cfg d) (hafter : (blocks i).after k.trace = some c)
    (hhalts : c.Halts (k.trace.apply (History.memAt m₀ L N)))
    (hroom : (c.trace (k.trace.apply (History.memAt m₀ L N))).writes.length ≤ n)
    (hmask : d = .writeThrough → ∀ a v, Event.store a v 0#w ∉
      c.trace (k.trace.apply (History.memAt m₀ L N))) :
    ∃ T tr m, Pool.ReachesAlone (exec cfg) (ClientCall cfg d blocks) p U T ∧ (T.ctl p).Done ∧
      Solo d p { k with trace := tr } L N m T.st ∧ (blocks i).Completes tr := by
  induction c generalizing U k n with
  | done => exact ⟨U, k.trace, n, .refl, hdone, h, .done, hafter, trivial⟩
  | stuck => exact hhalts.elim
  | load a f ih =>
    have hnext (x : BitVec w) : (blocks i).after (.load a x :: k.trace) = some (f x) := by
      simp [AtomicBlock.after, AtomicBlock.step?, hafter]
    have hcall : ClientCall cfg d blocks p (.load a) U.st := by
      refine h.clientCall hk (fun _ h => absurd rfl h) rfl (by simp) (by cases ·) ⟨i, ?_⟩
      have htrace : (U.st.txs p).trace = k.trace := congrArg Control.trace h.control
      rw [AtomicBlock.Performs, htrace, hnext]
      rfl
    obtain ⟨V, hV, hdoneV, x, hx⟩ := Pool.ReachesAlone.call hdone hcall (exec_load_ends h hk)
    have hkV : Control.Plain cfg d { k with trace := .load a x :: k.trace } :=
      ⟨hk.status, hk.design, hk.readOnly, hk.irrevocable⟩
    have hcons := Run.solo_consistent (hU.trans hV.reaches) hdoneV hx hkV
    obtain ⟨heq, -⟩ := hcons
    subst heq
    obtain ⟨T, tr, m, hT, hend⟩ := ih _ (hU.trans hV.reaches) hdoneV hx hkV (hnext _) hhalts
      (by simpa [AtomicBlock.trace, Trace.writes] using hroom)
      fun hd a v hmem => hmask hd a v (List.mem_append_left _ hmem)
    exact ⟨T, tr, m, hV.trans hT, hend⟩
  | store a v y b ih =>
    simp only [AtomicBlock.trace, Trace.writes_append, Trace.writes, List.length_append,
      List.length_singleton] at hroom
    obtain ⟨n, rfl⟩ : ∃ n', n = n' + 1 := ⟨n - 1, by omega⟩
    have hnext : (blocks i).after (.store a v y :: k.trace) = some b := by
      simp [AtomicBlock.after, AtomicBlock.step?, hafter]
    have hcall : ClientCall cfg d blocks p (.store2 a v y) U.st := by
      refine h.clientCall hk (fun _ _ => Nat.succ_pos n) rfl (by simp) (by cases ·) ⟨i, ?_⟩
      have htrace : (U.st.txs p).trace = k.trace := congrArg Control.trace h.control
      rw [AtomicBlock.Performs, htrace, hnext]
      rfl
    have hy : d = .writeThrough → y ≠ 0#w := fun hd hy =>
      hmask hd a v (List.mem_append_right _ (by simp [hy]))
    obtain ⟨V, hV, hdoneV, hx⟩ := Pool.ReachesAlone.call hdone hcall (exec_store_ends h hk hy)
    have hkV : Control.Plain cfg d { k with trace := .store a v y :: k.trace } :=
      ⟨hk.status, hk.design, hk.readOnly, hk.irrevocable⟩
    obtain ⟨T, tr, m, hT, hend⟩ := ih (hU.trans hV.reaches) hdoneV hx hkV hnext hhalts
      (Nat.le_of_succ_le_succ hroom)
      fun hd a v hmem => hmask hd a v (List.mem_append_left _ hmem)
    exact ⟨T, tr, m, hV.trans hT, hend⟩

omit [DecidableEq Tid] [DecidableEq Lock] in
/-- The committed memory after a commit that comes last. -/
theorem View.Inv.cur_of_last {S : Setting Tid Addr Lock w} {v v' : View Tid Addr Lock w}
    (hv' : v'.Inv S) (hv : v.Inv S) {c : Commit Tid Addr w} (hc : v'.commits = c :: v.commits)
    (hts : c.ts = if c.update then v.clock + 1 else v.clock) :
    v'.cur S = c.trace.apply (v.cur S) := by
  have hmem : c ∈ v'.commits := hc ▸ List.mem_cons_self
  rw [View.cur, View.memAt, hc]
  exact History.memAt_cons_last (fun c hc _ => hv.ts_le c hc) hts (hv'.ordered.readOnly c hmem)
    (hv'.ts_le c hmem)

omit [DecidableEq Tid] [DecidableEq Lock] in
/-- Between two transactions a thread holds no lock. -/
theorem not_holds_of_nesting {S : Setting Tid Addr Lock w} (h : boundary S p s)
    (hn : (s.txs p).nesting = 0) (ℓ : Lock) : ¬ s.view.Holds p ℓ := by
  obtain ⟨tx, -, -, hno⟩ | ⟨tx, hact, htx, -⟩ := h
  · exact hno ℓ
  · have := hact.nesting
    rw [← htx] at this
    omega

/-- The locks of the other threads are theirs. -/
theorem owned_alone (h : Pool.ReachesAlone (exec cfg) (ClientCall cfg d blocks) p T U)
    (hT : Run cfg m₀ size (ClientCall cfg d blocks) T) {q : Tid} (hq : q ≠ p)
    (ℓ : Lock) (i : ℕ) : U.st.locks ℓ = .owned q i ↔ T.st.locks ℓ = .owned q i := by
  obtain ⟨hinv, hout⟩ := Run.sound (S := hintSetting cfg d m₀) admits_of_client hT
    fun _ _ _ => trivial
  refine Pool.ReachesAlone.sound_rel (G := protocol (hintSetting cfg d m₀))
    (R := fun s t => t.locks ℓ = .owned q i ↔ s.locks ℓ = .owned q i) (fun _ => .rfl)
    (fun _ _ _ h h' => h'.trans h) (fun s t _ _ hg => hg.2.locks q hq ℓ i) exec_spec
    (fun p k s hs hB hk => pre_of_admits p k s hB (admits_of_client p k s hs.inv hB hk))
    (fun _ => trivial) hinv hout h

/-- Thread `p` has executed the block at once: it has committed it, in one attempt. -/
structure Executed (p : Tid) (b : AtomicBlock Addr w) (T U : Pool (State Tid Addr Lock w) Tid) :
    Prop where
  commits : ∃ c, U.st.commits = c :: T.st.commits ∧ c.tid = p ∧ c.trace = b.trace T.st.mem
  mem : U.st.mem = b.run T.st.mem
  locks : ∀ ℓ, ∃ l, U.st.locks ℓ = .free l
  nesting : (U.st.txs p).nesting = 0
  statAborts : (U.st.txs p).statAborts = (T.st.txs p).statAborts
  statCommits : (U.st.txs p).statCommits = statSucc (T.st.txs p).statCommits
  done : (U.ctl p).Done
  others : ∀ q, q ≠ p → U.ctl q = T.ctl q

/-- A block that halts and is started while no lock is held commits in the first attempt, if its
thread runs alone, there is room for its stores, and the clock is not at its end. Neither the thread nor
another one has asked to be irrevocable, and the block is not started read-only. -/
theorem commits_alone (hT : Run cfg m₀ size (ClientCall cfg d blocks) T)
    (hdone : (T.ctl p).Done) (hidle : (T.st.txs p).nesting = 0)
    (hirr : (T.st.txs p).irrevocable = 0) (htoken : T.st.irrevocable = 0)
    (hlocks : ∀ ℓ, ∃ l, T.st.locks ℓ = .free l) (hclock : T.st.clock < cfg.versionMax) {i : ι}
    (hhalts : (blocks i).Halts T.st.mem)
    (hroom : ((blocks i).trace T.st.mem).writes.length ≤ (T.st.txs p).wSet.size)
    (hmask : d = .writeThrough → ∀ a v, Event.store a v 0#w ∉ (blocks i).trace T.st.mem)
    (attr : Attr) (hattr : cfg.designOf attr = d) (hro : attr.readOnly = false)
    (hkept : attr.noRetry = true → cfg.UnaskedCommit (T.st.txs p).statAborts) :
    ∃ U, Pool.ReachesAlone (exec cfg) (ClientCall cfg d blocks) p T U ∧
      Executed p (blocks i) T U := by
  obtain ⟨hinv, hout⟩ := Run.sound (S := hintSetting cfg d m₀) admits_of_client hT
    fun _ _ _ => trivial
  have hmem : T.st.mem = History.memAt m₀ T.st.commits T.st.clock := by
    funext a
    obtain ⟨l, hl⟩ := hlocks (cfg.getLock a)
    exact hinv.mem_of_free hl
  have hfree : ∀ ℓ, ∃ l, T.st.locks ℓ = .free l ∧ lockGetTimestamp l ≤ T.st.clock := by
    intro ℓ
    obtain ⟨l, hl⟩ := hlocks ℓ
    exact ⟨l, hl, View.due_of_free (v := T.st.view) hl ▸ hinv.due_le ℓ⟩
  -- the transaction is started
  have hstart : ClientCall cfg d blocks p (.start attr : Cmd Addr w) T.st := by
    refine ⟨⟨⟨?_, ?_, (by cases ·)⟩, fun _ _ => ⟨rfl, (by cases ·)⟩, fun _ _ h => (by cases h),
      fun _ _ h => (by cases h), fun _ _ h => (by cases h), (by cases ·),
      (by cases ·)⟩, hidle⟩
    · simp [Called, hidle]
    · simpa [Cmd.attr?] using hattr
  obtain ⟨U, hU, hdoneU, hsolo⟩ := Pool.ReachesAlone.call hdone hstart
    (exec_start_ends (d := d) hfree hclock htoken hirr hidle)
  have hk : Control.Plain cfg d ((T.st.txs p).control.begun attr cfg.startCb) :=
    ⟨rfl, hattr, hro, hirr⟩
  -- the block is run to its end
  rw [hmem] at hhalts hroom hmask
  obtain ⟨V, tr, n, hV, hdoneV, hsoloV, hcompletes⟩ := Run.solo_block (hT.trans hU.reaches)
    hdoneU hsolo hk rfl hhalts hroom hmask
  have hkV : Control.Plain cfg d { (T.st.txs p).control.begun attr cfg.startCb with trace := tr } :=
    ⟨rfl, hattr, hro, hirr⟩
  have hcons := Run.solo_consistent ((hT.trans hU.reaches).trans hV.reaches) hdoneV hsoloV hkV
  -- it is committed
  have hcommit : ClientCall cfg d blocks p (.commit : Cmd Addr w) V.st := by
    have hattrV : (V.st.txs p).attr = attr := congrArg Control.attr hsoloV.control
    have hstatV : (V.st.txs p).statAborts = (T.st.txs p).statAborts :=
      congrArg Control.statAborts hsoloV.control
    refine hsoloV.clientCall hkV (fun _ h => absurd rfl h) rfl (by simp) (fun _ _ hretry _ _ => ?_)
      ⟨i, ?_⟩
    · rw [hstatV]
      exact hkept (hattrV ▸ hretry)
    have htrace : (V.st.txs p).trace = tr := congrArg Control.trace hsoloV.control
    rwa [htrace]
  obtain ⟨W, hW, hdoneW, ⟨update, hcommits⟩, hnesting, haborts, hstat⟩ :=
    Pool.ReachesAlone.call hdoneV hcommit (exec_commit_ends hsoloV hkV rfl)
  have hTW := (hU.trans hV).trans hW
  obtain ⟨hinvW, houtW⟩ := Run.sound (S := hintSetting cfg d m₀) admits_of_client
    (hT.trans hTW.reaches) fun _ _ _ => trivial
  have hfreeW : ∀ ℓ, ∃ l, W.st.locks ℓ = .free l := by
    intro ℓ
    cases hℓ : W.st.locks ℓ with
    | free l => exact ⟨l, rfl⟩
    | owned q j =>
      by_cases hq : q = p
      · subst hq
        have hB := (houtW q).of_done ⟨hinvW, trivial⟩ hdoneW
        exact absurd ⟨j, hℓ⟩ (not_holds_of_nesting hB hnesting ℓ)
      · obtain ⟨l, hl⟩ := hlocks ℓ
        rw [(owned_alone hTW hT hq ℓ j).1 hℓ] at hl
        cases hl
  refine ⟨W, hTW, ⟨⟨_, hcommits, rfl, ?_⟩, ?_, ?_, hnesting, haborts, hstat, hdoneW, fun q hq =>
    hTW.ctl hq⟩⟩
  · rw [hmem]
    exact hcompletes.trace_eq hcons
  · funext a
    obtain ⟨l, hl⟩ := hfreeW (cfg.getLock a)
    have hlast : W.st.view.cur (hintSetting cfg d m₀ : Setting Tid Addr Lock w) =
        tr.apply (T.st.view.cur (hintSetting cfg d m₀ : Setting Tid Addr Lock w)) :=
      hinvW.cur_of_last hinv hcommits rfl
    have hmemW : W.st.mem a = W.st.view.cur (hintSetting cfg d m₀ : Setting Tid Addr Lock w) a :=
      hinvW.mem_of_free hl
    rw [hmemW, hlast, hmem, ← hcompletes.run_eq hcons]
    rfl
  · exact hfreeW

/-- An increment that has not yet been committed. -/
def pendingCalls : List (Fin 2 × Cmd (Fin 2) 8) :=
  [(1, .start .readWrite), (1, .load 0), (1, .store 0 1)]

set_option maxRecDepth 10000 in
theorem commits_alone_pending :
    ∃ U, Pool.ReachesAlone (exec (.plain .writeBackCtl id))
        (ClientCall (.plain .writeBackCtl id) .writeBackCtl incrementBlock) 0
        (after (.plain .writeBackCtl id) 4 40 pendingCalls) U ∧
      Executed 0 (incrementBlock ()) (after (.plain .writeBackCtl id) 4 40 pendingCalls) U :=
  commits_alone (run_after (by decide)) (by decide) (by decide) (by decide) (by decide)
    (fun _ => ⟨0, rfl⟩) (by decide) trivial (by decide) (fun h => absurd h (by decide)) .readWrite rfl rfl
    (by cases ·)

end TinyStm
