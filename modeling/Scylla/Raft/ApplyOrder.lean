import Mathlib
import Scylla.Raft.Fsm.Frame

/-!
# The order in which a server applies what its fsm commits

`server_impl::process_fsm_output` (`raft/server.cc`) hands each output of `fsm::get_output()` to the state
machine: first a snapshot received from the leader (a local one only records what was applied already), then
the committed entries.  `get_output` chooses the committed entries by the commit index it observed at its previous
call and by the log's snapshot: those above the larger of the two, up to the commit index.

`ApplyInv last s` ties that choice to `last`, the index handed out last: with no remote snapshot pending, `last` is
the observed commit index; with one pending, the snapshot is ahead of `last`.  Every entry point keeps it
(`applySnapshot_applyInv`, with `ApplyFrame` for the others), `get_output` moves it to the commit index
(`getOutput_applyInv`), and the constructor establishes it at the snapshot of the log (`create_applyInv`).  By
induction over a run, what is handed out is a chain for `Applied.Follows` (`Run.isChain_applied`).
-/

namespace Scylla.Raft

open StateExcept

/-- What the state machine is handed: a snapshot to load, or a committed entry to apply, with its index. -/
inductive Applied where
  | snapshot (idx : Nat)
  | entry (idx : Nat)
  deriving DecidableEq, Repr

namespace Applied

def idx : Applied → Nat
  | snapshot i => i
  | entry i => i

@[simp] theorem idx_snapshot (i : Nat) : (snapshot i).idx = i := rfl

@[simp] theorem idx_entry (i : Nat) : (entry i).idx = i := rfl

/-- `b` may follow `a`: an entry at the very next index, a snapshot at any later one. -/
def Follows (a b : Applied) : Prop :=
  match b with
  | entry i => i = a.idx + 1
  | snapshot i => a.idx < i

instance : DecidableRel Follows := fun a b =>
  match b with
  | entry i => inferInstanceAs (Decidable (i = a.idx + 1))
  | snapshot i => inferInstanceAs (Decidable (a.idx < i))

end Applied

namespace FsmOutput

/-- The snapshot `process_fsm_output` loads into the state machine: a remote one only. -/
def remoteSnapshot (o : FsmOutput) : Option SnapshotDescriptor :=
  match o.snp with
  | some a => if a.isLocal then none else some a.snp
  | none => none

/-- What `process_fsm_output` hands to the state machine, in order: the remote snapshot, then the committed
entries. -/
def applied (o : FsmOutput) : List Applied :=
  (o.remoteSnapshot.map fun snp => Applied.snapshot snp.idx).toList ++ o.committed.map fun e => .entry e.idx

@[simp] theorem remoteSnapshot_empty : ({} : FsmOutput).remoteSnapshot = none := rfl

/-- The committed entries as the indexes they are applied at. -/
theorem applied_eq (o : FsmOutput) :
    o.applied = (o.remoteSnapshot.map fun snp => Applied.snapshot snp.idx).toList ++
      (o.committed.map (·.idx)).map .entry := by
  rw [applied, List.map_map]
  rfl

end FsmOutput

namespace Applied

/-- Entries at the indexes right after `a`, one after the other, follow `a`; the last of them is at
`a.idx + n`. -/
theorem isChain_entries (a : Applied) (n : Nat) :
    (a :: (List.range' (a.idx + 1) n).map entry).IsChain Follows ∧
      ((a :: (List.range' (a.idx + 1) n).map entry).getLast (List.cons_ne_nil _ _)).idx = a.idx + n := by
  induction n generalizing a with
  | zero => exact ⟨.singleton a, rfl⟩
  | succ n ih =>
    -- The list after `a` is the one of `n` entries after the entry at `a.idx + 1`.
    obtain ⟨hchain, hlast⟩ := ih (entry (a.idx + 1))
    simp only [idx_entry] at hchain hlast
    rw [List.range'_succ, List.map_cons]
    refine ⟨.cons_cons rfl hchain, ?_⟩
    rw [List.getLast_cons (List.cons_ne_nil _ _), hlast]
    omega

end Applied

namespace Fsm

/-- The entries of a consecutive log between two indexes carry those indexes. -/
theorem entriesRange_idx {l : Log} {lo hi : Nat} {es : List LogEntry} (hl : l.Consecutive)
    (h : entriesRange l lo hi = .ok es) : es.map (·.idx) = List.range' lo (hi + 1 - lo) := by
  unfold entriesRange at h
  generalize List.range' lo (hi + 1 - lo) = is at h ⊢
  induction is generalizing es with
  | nil =>
    simp only [List.mapM_nil] at h
    cases h
    rfl
  | cons i is ih =>
    rw [List.mapM_cons] at h
    obtain ⟨e, he, h⟩ := except_bind_eq_ok.1 h
    obtain ⟨es', hes, h⟩ := except_bind_eq_ok.1 h
    cases h
    split at he
    · cases he
      rw [List.map_cons, hl.getEntry_idx ‹_›, ih hes]
    · cases he

/-- The entries between what was handed out and the commit index carry the indexes in between. -/
theorem committed_idx {l : Log} {lo hi : Nat} {cs : List LogEntry} (hl : l.Consecutive)
    (h : (if lo < hi then entriesRange l (lo + 1) hi else .ok []) = .ok cs) :
    cs.map (·.idx) = List.range' (lo + 1) (hi - lo) := by
  split at h
  · rw [entriesRange_idx hl h]
    congr 1
    omega
  · cases h
    rw [Nat.sub_eq_zero_of_le (Nat.le_of_not_lt ‹_›)]
    rfl

structure ApplyInv (last : Nat) (s : Fsm) : Prop where
  consecutive : s.log.Consecutive
  snapshot_le : s.log.snapshot.idx ≤ s.commitIdx
  observed_le : s.observed.commitIdx ≤ s.commitIdx
  committed_nil : s.output.committed = []
  remote : ∀ snp, s.output.remoteSnapshot = some snp →
    snp.idx = s.log.snapshot.idx ∧ s.observed.commitIdx ≤ last ∧ last < s.log.snapshot.idx
  no_remote : s.output.remoteSnapshot = none → s.log.snapshot.idx ≤ s.observed.commitIdx ∧ last = s.observed.commitIdx

theorem ApplyInv.frame {last : Nat} {s s' : Fsm} (h : ApplyInv last s) (hf : ApplyFrame s s') : ApplyInv last s' := by
  have hrs : s'.output.remoteSnapshot = s.output.remoteSnapshot := by
    unfold FsmOutput.remoteSnapshot
    rw [hf.snp]
  refine ⟨hf.consecutive h.consecutive, ?_, ?_, ?_, ?_, ?_⟩
  · rw [hf.snapshot]; exact h.snapshot_le.trans hf.commitIdx_le
  · rw [hf.observed]; exact h.observed_le.trans hf.commitIdx_le
  · rw [hf.committed]; exact h.committed_nil
  · intro snp hsnp
    rw [hrs] at hsnp
    rw [hf.observed, hf.snapshot]
    exact h.remote snp hsnp
  · intro hnone
    rw [hrs] at hnone
    rw [hf.observed, hf.snapshot]
    exact h.no_remote hnone

/-- Once the output is taken, the state machine has been handed everything up to the commit index. -/
theorem ApplyInv.taken {s : Fsm} (hl : s.log.Consecutive) (hsnap : s.log.snapshot.idx ≤ s.commitIdx)
    (hobs : s.observed.commitIdx = s.commitIdx) (hout : s.output = {}) : ApplyInv s.commitIdx s := by
  have hnone : s.output.remoteSnapshot = none := by
    rw [hout, FsmOutput.remoteSnapshot_empty]
  refine ⟨hl, hsnap, hobs.le, by rw [hout], fun snp hsnp => ?_, fun _ => ⟨hobs ▸ hsnap, hobs.symm⟩⟩
  rw [hnone] at hsnp
  cases hsnp

/-- The two ways `apply_snapshot` succeeds: a snapshot that is not new is only marked to be dropped, and a new
one, local and applied or remote and ahead of the commit index, replaces the log's and is handed out. -/
theorem applySnapshot_eq_ok {s s' : Fsm} {snp : SnapshotDescriptor} {te tb : Nat} {isLocal b : Bool}
    (h : (applySnapshot snp te tb isLocal).run s = .ok (b, s')) :
    ApplyFrame s s' ∨
      (if isLocal then snp.idx ≤ s.observed.commitIdx else s.commitIdx < snp.idx) ∧
      s.log.snapshot.idx < snp.idx ∧
      ∃ l rel nf, s.log.applySnapshot snp te tb = .ok (l, rel, nf) ∧ s'.log = l ∧
        s'.commitIdx = max s.commitIdx snp.idx ∧ s'.observed = s.observed ∧
        s'.output.committed = s.output.committed ∧
        s'.output.snp = some { snp := l.snapshot, isLocal, preservedLogEntries := l.snapshot.idx + 1 - nf } := by
  simp [applySnapshot] at h
  split at h
  · rename_i hcase
    split at h
    · obtain ⟨_, hset, -⟩ := run_map_eq_ok.1 h
      rw [run_set_eq_ok] at hset
      subst hset
      exact .inl (ApplyFrame.of_view rfl)
    · rename_i hnew
      obtain ⟨⟨l, rel, nf⟩, s₁, hlift, h⟩ := run_bind_eq_ok.1 h
      obtain ⟨ha, rfl⟩ := run_lift_eq_ok.1 hlift
      obtain ⟨_, hset, -⟩ := run_map_eq_ok.1 h
      rw [run_set_eq_ok] at hset
      subst hset
      refine .inr ⟨?_, by omega, l, rel, nf, ha, rfl, rfl, rfl, rfl, rfl⟩
      cases isLocal
      · simp at hnew ⊢
        omega
      · simpa using hcase
  · simp at h

/-- A snapshot never takes the commit index back. -/
theorem applySnapshot_commitIdx_le {s s' : Fsm} {snp : SnapshotDescriptor} {te tb : Nat} {isLocal b : Bool}
    (h : (applySnapshot snp te tb isLocal).run s = .ok (b, s')) : s.commitIdx ≤ s'.commitIdx := by
  rcases applySnapshot_eq_ok h with hf | ⟨-, -, l, rel, nf, -, -, hci, -⟩
  · exact hf.commitIdx_le
  · rw [hci]
    exact le_max_left _ _

theorem applySnapshot_applyInv {last : Nat} {s s' : Fsm} {snp : SnapshotDescriptor} {te tb : Nat}
    {isLocal b : Bool} (hs : ApplyInv last s) (h : (applySnapshot snp te tb isLocal).run s = .ok (b, s')) :
    ApplyInv last s' := by
  rcases applySnapshot_eq_ok h with hf | ⟨hcase, hnew, l, rel, nf, ha, hlog, hci, hobs, hcom, hsnp⟩
  · exact hs.frame hf
  have hsnap : s'.log.snapshot = snp := hlog ▸ Log.applySnapshot_snapshot ha
  have hrs : s'.output.remoteSnapshot = if isLocal then none else some snp := by
    unfold FsmOutput.remoteSnapshot
    rw [hsnp, ← hlog, hsnap]
  have hobs_le := hs.observed_le
  -- What was handed out last is behind the old snapshot or is the observed commit index.
  have hlast : s.observed.commitIdx ≤ last ∧ (last < s.log.snapshot.idx ∨ last = s.observed.commitIdx) := by
    cases hr : s.output.remoteSnapshot with
    | some r =>
      obtain ⟨-, h1, h2⟩ := hs.remote r hr
      exact ⟨h1, .inl h2⟩
    | none =>
      obtain ⟨-, h1⟩ := hs.no_remote hr
      exact ⟨h1 ▸ le_rfl, .inr h1⟩
  refine ⟨hlog ▸ hs.consecutive.applySnapshot ha, ?_, ?_, hcom.trans hs.committed_nil, ?_, ?_⟩
  · rw [hsnap, hci]
    exact le_max_right _ _
  · rw [hobs, hci]
    omega
  · -- A remote snapshot is ahead of the commit index, hence of everything handed out.
    intro r hr
    rw [hrs] at hr
    cases isLocal
    · simp only [Bool.false_eq_true, if_false, Option.some.injEq] at hr hcase
      subst hr
      rw [hsnap, hobs]
      exact ⟨rfl, hlast.1, by omega⟩
    · simp at hr
  · -- A local snapshot covers only what was applied already.
    intro hnone
    rw [hrs] at hnone
    cases isLocal
    · simp at hnone
    · simp only [if_true] at hcase
      rw [hsnap, hobs]
      exact ⟨hcase, by omega⟩

theorem takeOutput_eq_ok {diff : Nat} {s s' : Fsm} {o : FsmOutput} (h : (takeOutput diff).run s = .ok (o, s')) :
    o.snp = s.output.snp ∧
    (∃ cs, o.committed = s.output.committed ++ cs ∧
      (if max s.observed.commitIdx s.log.snapshot.idx < s.commitIdx then
        entriesRange s.log (max s.observed.commitIdx s.log.snapshot.idx + 1) s.commitIdx else .ok []) = .ok cs) ∧
    ∃ s₂ : Fsm, s₂.observed.commitIdx = s.commitIdx ∧ s₂.log = s.log ∧ s₂.commitIdx = s.commitIdx ∧
      s₂.output = {} ∧ ApplyFrame s₂ s' := by
  unfold takeOutput at h
  dsimp only at h
  obtain ⟨s0, s1, hg, h1⟩ := run_bind_eq_ok.1 h
  obtain ⟨rfl, rfl⟩ := run_get_eq_ok.1 hg
  obtain ⟨les, s2, hl, h2⟩ := run_bind_eq_ok.1 h1
  obtain ⟨-, rfl⟩ := run_lift_eq_ok.1 hl
  obtain ⟨cs, s3, hc, h3⟩ := run_bind_eq_ok.1 h2
  obtain ⟨hcs, rfl⟩ := run_lift_eq_ok.1 hc
  obtain ⟨u, s4, hset, h4⟩ := run_bind_eq_ok.1 h3
  rw [run_set_eq_ok] at hset
  subst hset
  -- Only the stable index may move after the observed state advanced.
  split at h4
  · obtain ⟨u, s5, hadv, h5⟩ := run_bind_eq_ok.1 h4
    obtain ⟨rfl, rfl⟩ := run_pure_eq_ok.1 h5
    refine ⟨rfl, ⟨cs, rfl, hcs⟩, _, ?_, ?_, ?_, ?_, advanceStableIdx_keeps _ _ hadv⟩ <;> rfl
  · obtain ⟨rfl, rfl⟩ := run_pure_eq_ok.1 h4
    refine ⟨rfl, ⟨cs, rfl, hcs⟩, _, ?_, ?_, ?_, ?_, refl_of ApplyFrame _⟩ <;> rfl

/-- `get_output` is the leader's flush, which keeps the frame, and then the output taken. -/
theorem getOutput_eq_ok {s s' : Fsm} {o : FsmOutput} (h : getOutput.run s = .ok (o, s')) :
    ∃ diff s₁, ApplyFrame s s₁ ∧ (takeOutput diff).run s₁ = .ok (o, s') := by
  unfold getOutput at h
  obtain ⟨s0, s1, hg, h1⟩ := run_bind_eq_ok.1 h
  obtain ⟨rfl, rfl⟩ := run_get_eq_ok.1 hg
  obtain ⟨u, s₁, hflush, htake⟩ := run_bind_eq_ok.1 h1
  exact ⟨_, s₁, flushLeader_keeps _ _ hflush, htake⟩

theorem getOutput_commitIdx_le {s s' : Fsm} {o : FsmOutput} (h : getOutput.run s = .ok (o, s')) :
    s.commitIdx ≤ s'.commitIdx := by
  obtain ⟨diff, s₁, hflush, htake⟩ := getOutput_eq_ok h
  obtain ⟨-, -, s₂, -, -, hci, -, hf⟩ := takeOutput_eq_ok htake
  calc s.commitIdx ≤ s₁.commitIdx := hflush.commitIdx_le
    _ = s₂.commitIdx := hci.symm
    _ ≤ s'.commitIdx := hf.commitIdx_le

/-- One call of `get_output`: what it hands to the state machine follows what was handed out before, and the
invariant holds again at the last index handed out. -/
theorem getOutput_applyInv {s s' : Fsm} {o : FsmOutput} (a : Applied) (hs : ApplyInv a.idx s)
    (h : getOutput.run s = .ok (o, s')) :
    (a :: o.applied).IsChain Applied.Follows ∧
      ApplyInv ((a :: o.applied).getLast (List.cons_ne_nil _ _)).idx s' := by
  obtain ⟨diff, s₁, hflush, htake⟩ := getOutput_eq_ok h
  have hs₁ := hs.frame hflush
  obtain ⟨hsnp, ⟨cs, hcom, hcs⟩, s₂, hobs, hlog, hci, hout, hf⟩ := takeOutput_eq_ok htake
  rw [hs₁.committed_nil, List.nil_append] at hcom
  have hrs : o.remoteSnapshot = s₁.output.remoteSnapshot := by
    unfold FsmOutput.remoteSnapshot
    rw [hsnp]
  -- Whatever was handed out, the state machine is now at the commit index.
  have hdone : ApplyInv s₁.commitIdx s' := by
    have h₂ := ApplyInv.taken (hlog ▸ hs₁.consecutive) (by rw [hlog, hci]; exact hs₁.snapshot_le)
      (hobs.trans hci.symm) hout
    rw [hci] at h₂
    exact h₂.frame hf
  rw [FsmOutput.applied_eq, hrs, hcom, committed_idx hs₁.consecutive hcs]
  cases hr : s₁.output.remoteSnapshot with
  | some r =>
    -- A remote snapshot comes first, ahead of everything handed out; the entries after it follow it.
    obtain ⟨hr1, hr2, hr3⟩ := hs₁.remote r hr
    have hmax : max s₁.observed.commitIdx s₁.log.snapshot.idx = r.idx := by omega
    obtain ⟨hc, hl⟩ := Applied.isChain_entries (.snapshot r.idx) (s₁.commitIdx - r.idx)
    simp only [Applied.idx_snapshot] at hc hl
    simp only [Option.map_some, Option.toList_some, List.singleton_append, hmax]
    refine ⟨.cons_cons (show a.idx < r.idx by omega) hc, ?_⟩
    rw [List.getLast_cons (List.cons_ne_nil _ _), hl]
    have hsum : r.idx + (s₁.commitIdx - r.idx) = s₁.commitIdx := by
      have := hs₁.snapshot_le
      omega
    rw [hsum]
    exact hdone
  | none =>
    -- Only entries, from the one after the last handed out.
    obtain ⟨hr1, hr2⟩ := hs₁.no_remote hr
    have hmax : max s₁.observed.commitIdx s₁.log.snapshot.idx = a.idx := by omega
    obtain ⟨hc, hl⟩ := Applied.isChain_entries a (s₁.commitIdx - a.idx)
    simp only [Option.map_none, Option.toList_none, List.nil_append, hmax]
    refine ⟨hc, ?_⟩
    rw [hl]
    have hsum : a.idx + (s₁.commitIdx - a.idx) = s₁.commitIdx := by
      have := hs₁.observed_le
      omega
    rw [hsum]
    exact hdone


/-! ### The other entry points -/

/-- What every entry point but `get_output` keeps: the invariant, whatever was handed out last, and a commit index
that does not go back. -/
def ApplyStep (s s' : Fsm) : Prop :=
  (∀ last, ApplyInv last s → ApplyInv last s') ∧ s.commitIdx ≤ s'.commitIdx

namespace ApplyStep

instance : Std.Refl ApplyStep := ⟨fun _ => ⟨fun _ h => h, le_rfl⟩⟩

instance : IsTrans Fsm ApplyStep :=
  ⟨fun _ _ _ h₁ h₂ => ⟨fun last h => h₂.1 last (h₁.1 last h), h₁.2.trans h₂.2⟩⟩

theorem of_frame {s s' : Fsm} (h : ApplyFrame s s') : ApplyStep s s' :=
  ⟨fun _ hs => hs.frame h, h.commitIdx_le⟩

end ApplyStep

theorem applySnapshot_keeps (snp : SnapshotDescriptor) (te tb : Nat) (isLocal : Bool) :
    Keeps ApplyStep (applySnapshot snp te tb isLocal) :=
  fun _ _ _ h => ⟨fun _ hs => applySnapshot_applyInv hs h, applySnapshot_commitIdx_le h⟩

/-- A handler that keeps the frame keeps the step relation. -/
theorem keeps_applyStep {α : Type} {x : FsmM α} (h : Keeps ApplyFrame x) : Keeps ApplyStep x :=
  h.mono fun _ _ => ApplyStep.of_frame

theorem dispatch_keeps (src : Nat) (msg : RpcMessage) (rnd : Nat) : Keeps ApplyStep (dispatch src msg rnd) := by
  unfold dispatch
  refine Keeps.get_bind fun s => ?_
  -- One goal per arm of the match on the role and the message; only a follower installs a snapshot, every other
  -- handler keeps the frame.
  split
  · exact keeps_pure _
  · exact keeps_applyStep (appendEntriesReply_keeps _ _)
  · exact keeps_applyStep (requestVote_keeps _ _)
  · exact keeps_applyStep (sendTo_keeps _ _)
  · exact keeps_applyStep (installSnapshotReply_keeps _ _)
  · exact keeps_applyStep (handleReadQuorumReply_keeps _ _)
  · exact keeps_applyStep (requestVote_keeps _ _)
  · exact keeps_applyStep (requestVoteReply_keeps _ _ _)
  · exact keeps_applyStep (sendTo_keeps _ _)
  · exact keeps_applyStep (maybeResendVoteRequest_keeps _)
  · exact keeps_applyStep (appendEntries_keeps _ _)
  · exact keeps_applyStep (requestVote_keeps _ _)
  · exact Keeps.bind (applySnapshot_keeps _ _ _ _) fun _ => keeps_applyStep (sendTo_keeps _ _)
  · exact keeps_applyStep (becomeCandidate_keeps _ _ _)
  · exact keeps_applyStep (Keeps.bind (advanceCommitIdx_keeps _) fun _ => Keeps.get_bind fun _ => sendTo_keeps _ _)
  · exact keeps_pure _


/-- A message from the leader of the term: the time it was heard from is recorded, and the message handled. -/
theorem heardFromLeader_keeps (src : Nat) (msg : RpcMessage) (rnd : Nat) :
    Keeps ApplyStep (do modify fun s : Fsm => { s with lastElectionTime := s.now }; dispatch src msg rnd) := by
  refine Keeps.bind ?_ fun _ => dispatch_keeps src msg rnd
  exact keeps_modify fun _ => ApplyStep.of_frame (ApplyFrame.of_view rfl)

theorem step_keeps (src : Nat) (msg : RpcMessage) (rnd : Nat) : Keeps ApplyStep (step src msg rnd) := by
  unfold step
  dsimp only
  have hd := dispatch_keeps src msg rnd
  refine keeps_get_bind fun s => ?_
  split
  · exact keeps_throw_bind _ _ s
  split
  · -- A newer term: the server becomes a follower in it first, unless the message is a pre-vote.
    refine (Keeps.ite (keeps_pure _) (Keeps.ite ?_ hd)) s
    exact Keeps.bind (keeps_applyStep (becomeFollower_keeps _)) fun _ =>
      Keeps.bind (keeps_applyStep (updateCurrentTerm_keeps _)) fun _ => hd
  split
  · -- An older term: at most a reply, and the message is not handled.
    have hreply := fun m => Keeps.bind (keeps_applyStep (sendTo_keeps src m)) fun _ => keeps_pure (R := ApplyStep) ()
    split
    · exact hreply _ s
    · exact hreply _ s
    · exact hreply _ s
    · exact Keeps.ite (hreply _) (keeps_pure _) s
    · exact Keeps.ite (Keeps.bind (keeps_applyStep (maybeResendVoteRequest_keeps _)) fun _ => keeps_pure _)
        (keeps_pure _) s
    · exact keeps_pure _ s
  · -- The current term: a message from its leader makes a candidate or a follower without a leader follow it, and
    -- the time it was heard from is recorded.
    have hheard := heardFromLeader_keeps src
    have hfollow := fun (m : RpcMessage) => Keeps.bind (keeps_applyStep (becomeFollower_keeps src)) fun _ =>
      hheard m rnd
    split
    -- The three messages of a leader share one arm in the source; split on the role in each.
    iterate 3
      split
      · exact hfollow _ s
      · exact keepsFrom_set_bind (ApplyStep.of_frame (ApplyFrame.of_view rfl)) (hheard _ _ _)
      · exact hheard _ _ s
    exact hd s


/-! ### Runs -/

private theorem exec_eq_none {α : Type} {x : FsmM α} {s s' : Fsm} {o : Option FsmOutput} (hx : Keeps ApplyStep x)
    (h : (x >>= fun _ => pure none : FsmM (Option FsmOutput)).run s = .ok (o, s')) : o = none ∧ ApplyStep s s' := by
  obtain ⟨a, s₁, hxr, hp⟩ := run_bind_eq_ok.1 h
  obtain ⟨rfl, rfl⟩ := run_pure_eq_ok.1 hp
  exact ⟨rfl, hx s hxr⟩

/-- `get_output` hands out its output; every other entry point hands out nothing and keeps the step relation. -/
theorem Op.exec_eq_ok {op : Op} {s s' : Fsm} {o : Option FsmOutput} (h : op.exec.run s = .ok (o, s')) :
    (∃ out, o = some out ∧ Fsm.getOutput.run s = .ok (out, s')) ∨ (o = none ∧ ApplyStep s s') := by
  cases op with
  | tick isAlive rnd => exact .inr (exec_eq_none (keeps_applyStep (tick_keeps isAlive rnd)) h)
  | step src msg rnd => exact .inr (exec_eq_none (step_keeps src msg rnd) h)
  | addEntry data => exact .inr (exec_eq_none (keeps_applyStep (addEntry_keeps data)) h)
  | getOutput =>
    obtain ⟨out, s₁, hget, hp⟩ := run_bind_eq_ok.1 h
    obtain ⟨rfl, rfl⟩ := run_pure_eq_ok.1 hp
    exact .inl ⟨out, rfl, hget⟩
  | applySnapshot snp te tb isLocal => exact .inr (exec_eq_none (applySnapshot_keeps snp te tb isLocal) h)
  | transferLeadership timeout => exact .inr (exec_eq_none (keeps_applyStep (transferLeadership_keeps timeout)) h)
  | startReadBarrier requester => exact .inr (exec_eq_none (keeps_applyStep (startReadBarrier_keeps requester)) h)
  | pingLeader isAlive => exact .inr (exec_eq_none (keeps_applyStep (pingLeaderOp_keeps isAlive)) h)
  | stop => exact .inr (exec_eq_none (keeps_applyStep stop_keeps) h)

/-- Along a run, the commit index never goes back. -/
theorem Run.commitIdx_le {s t : Fsm} {outs : List FsmOutput} (hr : Run s outs t) : s.commitIdx ≤ t.commitIdx := by
  induction hr with
  | nil => exact le_rfl
  | cons op hop _ ih =>
    rcases Op.exec_eq_ok hop with ⟨out, -, hget⟩ | ⟨-, hstep⟩
    · exact (getOutput_commitIdx_le hget).trans ih
    · exact hstep.2.trans ih

/-- Along a run from a state where `a` was handed out last, everything handed out follows what came before it. -/
theorem Run.isChain_applied {s t : Fsm} {outs : List FsmOutput} (hr : Run s outs t) :
    ∀ a : Applied, ApplyInv a.idx s → (a :: outs.flatMap FsmOutput.applied).IsChain Applied.Follows := by
  induction hr with
  | nil s => exact fun a _ => .singleton a
  | cons op hop _ ih =>
    intro a ha
    rcases Op.exec_eq_ok hop with ⟨out, rfl, hget⟩ | ⟨rfl, hstep⟩
    · -- The output follows `a`, and the rest of the run follows the last of it.
      obtain ⟨hc, hinv⟩ := getOutput_applyInv a ha hget
      obtain ⟨hhead, htail⟩ := List.isChain_cons.1 (ih _ hinv)
      rw [Option.toList_some, List.singleton_append, List.flatMap_cons, ← List.cons_append]
      refine hc.append htail fun x hx y hy => ?_
      rw [List.getLast?_eq_some_getLast (List.cons_ne_nil _ _), Option.mem_some_iff] at hx
      exact hx ▸ hhead y hy
    · rw [Option.toList_none, List.nil_append]
      exact ih a (hstep.1 _ ha)

/-- The constructor: the state machine holds the snapshot of the log, and nothing is handed out yet. -/
theorem create_applyInv {myId term votedFor commitIdx rnd : Nat} {log : Log} {config : FsmConfig} {s₀ : Fsm}
    (hlog : log.Consecutive) (h : create myId term votedFor log commitIdx config rnd = .ok s₀) :
    ApplyInv log.snapshot.idx s₀ := by
  unfold create at h
  dsimp only at h
  by_cases hid : myId = 0
  · rw [if_pos hid, except_throw_bind] at h
    exact absurd h except_throw_ne_ok
  rw [if_neg hid] at h
  obtain ⟨⟨u, s₁⟩, hstart, hret⟩ := except_bind_eq_ok.1 h
  cases except_pure_eq_ok.1 hret
  -- The commit index starts at the snapshot and is observed there; the election timer keeps the frame.
  refine ApplyInv.frame ?_ ((Keeps.ite (becomeCandidate_keeps _ _ _) (resetElectionTimeout_keeps _)) _ hstart)
  refine ⟨hlog, le_max_left _ _, le_max_left _ _, rfl, fun snp hsnp => ?_, fun _ => ⟨le_rfl, rfl⟩⟩
  rw [FsmOutput.remoteSnapshot_empty] at hsnp
  cases hsnp

end Fsm

open Fsm in
/-- The apply order of one server.  Over any run of its fsm the commit index never goes back; and from the
constructor on, the server's state machine is handed, in the order `process_fsm_output` hands them on, the snapshot
of the log it starts from and then committed entries and remote snapshots, each entry at the index right after
what was handed out before it and each snapshot beyond it: no entry twice, none skipped, none below a snapshot. -/
theorem apply_order {myId term votedFor commitIdx rnd : Nat} {log : Log} {config : FsmConfig} {s₀ : Fsm}
    (hlog : log.Consecutive) (hs₀ : create myId term votedFor log commitIdx config rnd = .ok s₀) :
    (∀ {s t : Fsm} {outs : List FsmOutput}, Run s outs t → s.commitIdx ≤ t.commitIdx) ∧
      ∀ {t : Fsm} {outs : List FsmOutput}, Run s₀ outs t →
        (Applied.snapshot log.snapshot.idx :: outs.flatMap FsmOutput.applied).IsChain Applied.Follows :=
  ⟨Run.commitIdx_le, fun hr => hr.isChain_applied _ (create_applyInv hlog hs₀)⟩

/-- The only voter of a group, started from an empty log. -/
theorem apply_order_single_voter :
    ∃ s₀, Fsm.create 1 0 0 ⟨{ config := { current := [⟨1, true⟩] } }, [], 1, 0, 0, 0, 0, 0⟩ 0
        { appendRequestThreshold := 1, maxLogSize := 1, enablePrevoting := false } 0 = .ok s₀ ∧
      (∀ {s t : Fsm} {outs : List FsmOutput}, Fsm.Run s outs t → s.commitIdx ≤ t.commitIdx) ∧
      ∀ {t : Fsm} {outs : List FsmOutput}, Fsm.Run s₀ outs t →
        (Applied.snapshot 0 :: outs.flatMap FsmOutput.applied).IsChain Applied.Follows := by
  have hok : (Fsm.create 1 0 0 ⟨{ config := { current := [⟨1, true⟩] } }, [], 1, 0, 0, 0, 0, 0⟩ 0
      { appendRequestThreshold := 1, maxLogSize := 1, enablePrevoting := false } 0).isOk = true := by
    decide +kernel
  obtain ⟨s₀, hs₀⟩ := exists_eq_ok_of_isOk hok
  exact ⟨s₀, hs₀, apply_order ⟨Nat.one_pos, fun h => by simp at h⟩ hs₀⟩

end Scylla.Raft
