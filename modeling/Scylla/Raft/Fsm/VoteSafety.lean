import Mathlib
import Scylla.Raft.Fsm.Frame
import Scylla.Lib.Ballots

/-!
# A server votes once in a term

`raft/fsm.cc`: a server grants a real vote (a `vote_reply` with `vote_granted` that is no pre-vote) only to a
candidate of its own term that it has voted for already, or while it has not voted and follows no leader
(`request_vote`), and records it in `_voted_for`; a new term clears the vote (`update_current_term`), and a
candidate records its vote for itself (`become_candidate`).  The votes of a server are the granted real vote
replies among its messages, as the server each goes to and its term (`votesCast`).

`VoteInv sent s`: `s` has no messages left in its output, and the votes among `sent` (what `get_output()` handed out
before) and among the pending messages agree with the server's term and vote (`Ballots.Consistent`).  Every handler
either leaves the term, the vote and the votes alone (`VoteFrame`, by far the most), or moves them as a voter may
(`VoteStep`); `get_output()` hands the pending messages out.  So along every run the server casts its real votes
to one candidate per term (`votes_once_per_term`).
-/

namespace Scylla.Raft

open StateExcept

/-! ### Votes among messages -/

/-- The vote a message casts: a granted reply of a real election, to a server (`0` is no server id). -/
def castVote : Nat × RpcMessage → Option (Nat × Nat)
  | (dst, .voteReply r) => if r.voteGranted && !r.isPrevote && dst != 0 then some (dst, r.currentTerm) else none
  | _ => none

/-- The votes cast by a list of messages, in order. -/
def votesCast (ms : List (Nat × RpcMessage)) : List (Nat × Nat) := ms.filterMap castVote

@[simp] theorem votesCast_nil : votesCast [] = [] := rfl

@[simp] theorem votesCast_append (ms ms' : List (Nat × RpcMessage)) :
    votesCast (ms ++ ms') = votesCast ms ++ votesCast ms' :=
  List.filterMap_append

theorem votesCast_singleton_of_none {m : Nat × RpcMessage} (h : castVote m = none) : votesCast [m] = [] := by
  simp [votesCast, h]

/-- The grant of a real vote to a server. -/
theorem votesCast_grant {dst : Nat} (hdst : dst ≠ 0) (term : Nat) :
    votesCast [(dst, .voteReply { currentTerm := term, voteGranted := true, isPrevote := false })] =
      [(dst, term)] := by
  simp [votesCast, castVote, hdst]

namespace Fsm

/-! ### Handlers that leave the vote alone -/

/-- The term, the vote, the output's messages and the votes among the pending messages are unchanged. -/
structure VoteFrame (s s' : Fsm) : Prop where
  currentTerm : s'.currentTerm = s.currentTerm
  votedFor : s'.votedFor = s.votedFor
  outputMessages : s'.output.messages = s.output.messages
  votes : votesCast s'.messages = votesCast s.messages

namespace VoteFrame

/-- The same, with the fields compared at once. -/
theorem of_view {s s' : Fsm}
    (h : (s'.currentTerm, s'.votedFor, s'.output.messages, s'.messages) =
      (s.currentTerm, s.votedFor, s.output.messages, s.messages)) : VoteFrame s s' := by
  simp only [Prod.mk.injEq] at h
  exact ⟨h.1, h.2.1, h.2.2.1, by rw [h.2.2.2]⟩

instance : Std.Refl VoteFrame := ⟨fun _ => of_view rfl⟩

instance : IsTrans Fsm VoteFrame :=
  ⟨fun _ _ _ h₁ h₂ => ⟨h₂.currentTerm.trans h₁.currentTerm, h₂.votedFor.trans h₁.votedFor,
    h₂.outputMessages.trans h₁.outputMessages, h₂.votes.trans h₁.votes⟩⟩

/-- Messages that cast no vote. -/
theorem of_append {s : Fsm} {ms : List (Nat × RpcMessage)} (hms : votesCast ms = []) :
    VoteFrame s { s with messages := s.messages ++ ms } :=
  ⟨rfl, rfl, rfl, by rw [votesCast_append, hms, List.append_nil]⟩

end VoteFrame

theorem sendTo_voteFrame (dst : Nat) (m : RpcMessage) (hm : castVote (dst, m) = none) :
    Keeps VoteFrame (sendTo dst m) :=
  keeps_modify fun _ => VoteFrame.of_append (votesCast_singleton_of_none hm)

theorem setLeaderState_voteFrame (ls : LeaderState) : Keeps VoteFrame (setLeaderState ls) :=
  keeps_modify fun _ => VoteFrame.of_view rfl

theorem resetElectionTimeout_voteFrame (rnd : Nat) : Keeps VoteFrame (resetElectionTimeout rnd) :=
  keeps_modify fun _ => VoteFrame.of_view rfl

theorem advanceCommitIdx_voteFrame (leaderCommitIdx : Nat) : Keeps VoteFrame (advanceCommitIdx leaderCommitIdx) :=
  keeps_modify fun _ => VoteFrame.of_view (by dsimp only; split <;> rfl)

theorem becomeFollower_voteFrame (leader : Nat) : Keeps VoteFrame (becomeFollower leader) := by
  apply keeps_get_bind
  intro s
  dsimp only
  split
  · exact keeps_throw_bind _ _ s
  · exact keepsFrom_set (VoteFrame.of_view (by split_ifs <;> rfl))

/-- The requests of one pass of `replicate_to` are appends and snapshots, which cast no vote. -/
theorem votesCast_replicateToLoop (s : Fsm) :
    ∀ (fuel : Nat) (p : FollowerProgress) (allowEmpty : Bool) (out : List (Nat × RpcMessage))
      {p' : FollowerProgress} {msgs : List (Nat × RpcMessage)},
      replicateToLoop s fuel p allowEmpty out = .ok (p', msgs) → votesCast msgs = votesCast out
  | 0, p, allowEmpty, out, p', msgs, h => by
    cases h
    rfl
  | fuel + 1, p, allowEmpty, out, p', msgs, h => by
    unfold replicateToLoop at h
    split at h
    · cases h
      rfl
    split at h
    · cases h
      rfl
    dsimp only at h
    rcases hterm : s.log.termFor (p.nextIdx - 1) with _ | prevTerm
    · rw [hterm] at h
      cases h
      simp [votesCast, castVote]
    · rw [hterm] at h
      dsimp only at h
      -- Both an empty request and one with entries go on with one more append request.
      split at h
      · obtain ⟨⟨es, q⟩, hq, hrec⟩ := except_bind_eq_ok.1 h
        obtain ⟨-, rfl⟩ := Prod.mk.inj (Except.ok.inj hq)
        rw [votesCast_replicateToLoop s fuel _ false _ hrec]
        simp [votesCast, castVote]
      · obtain ⟨⟨es, n⟩, -, h₂⟩ := except_bind_eq_ok.1 h
        obtain ⟨⟨es', q⟩, hq, hrec⟩ := except_bind_eq_ok.1 h₂
        obtain ⟨-, rfl⟩ := Prod.mk.inj (Except.ok.inj hq)
        rw [votesCast_replicateToLoop s fuel _ false _ hrec]
        simp [votesCast, castVote]

theorem replicateTo_voteFrame (id : Nat) (allowEmpty : Bool) : Keeps VoteFrame (replicateTo id allowEmpty) := by
  unfold replicateTo
  refine Keeps.bind leaderState_readOnly.of_eq fun ls => ?_
  split
  · refine keeps_get_bind fun s => KeepsFrom.bind (keeps_lift _ s) fun x s' hx => ?_
    obtain ⟨hloop, rfl⟩ := run_lift_eq_ok.1 hx
    obtain ⟨p, msgs⟩ := x
    refine (Keeps.bind (setLeaderState_voteFrame _) fun _ => keeps_modify fun _ => ?_) s
    exact VoteFrame.of_append (votesCast_replicateToLoop s _ _ _ _ hloop)
  · exact keeps_throw _

theorem replicateLoop_voteFrame : ∀ ps, Keeps VoteFrame (replicateLoop ps)
  | [] => keeps_pure _
  | p :: ps => by
    unfold replicateLoop
    refine keeps_get_bind fun s => ?_
    dsimp only
    split
    · exact (Keeps.bind (replicateTo_voteFrame _ _) fun _ => replicateLoop_voteFrame ps) s
    · exact replicateLoop_voteFrame ps s

theorem replicate_voteFrame : Keeps VoteFrame replicate :=
  Keeps.bind leaderState_readOnly.of_eq fun _ => replicateLoop_voteFrame _

theorem addEntry_voteFrame (data : EntryData) : Keeps VoteFrame (addEntry data) := by
  unfold addEntry
  dsimp only
  refine Keeps.bind checkIsLeader_readOnly.of_eq fun _ => Keeps.bind leaderState_readOnly.of_eq fun ls => ?_
  split
  · exact keeps_throw_bind _ _
  · refine keeps_get_bind fun s => ?_
    have hconf : ∀ isConf : Bool, Keeps VoteFrame (if isConf = true then do
          let s ← get
          let ls ← leaderState
          setLeaderState { ls with tracker := ls.tracker.setConfiguration s.log.getConfiguration s.log.lastIdx }
        else pure ()) := by
      intro isConf
      split
      · exact keeps_get_bind fun _ =>
          (Keeps.bind leaderState_readOnly.of_eq fun _ => setLeaderState_voteFrame _) _
      · exact keeps_pure _
    -- The new entry changes the log only.
    split
    · refine KeepsFrom.bind_of_eq (keeps_lift _) fun _ => ?_
      split
      · exact keeps_throw_bind _ _ s
      · exact KeepsFrom.bind_of_eq (keeps_lift _) fun _ => KeepsFrom.bind_of_eq (keeps_pure _) fun _ =>
          keepsFrom_set_bind (VoteFrame.of_view rfl) (hconf _ _)
    · exact KeepsFrom.bind_of_eq (keeps_pure _) fun _ => keepsFrom_set_bind (VoteFrame.of_view rfl) (hconf _ _)

theorem sendTimeoutNow_voteFrame (id : Nat) : Keeps VoteFrame (sendTimeoutNow id) := by
  unfold sendTimeoutNow
  refine keeps_get_bind fun s => (Keeps.bind (sendTo_voteFrame _ _ rfl) fun _ =>
    Keeps.bind leaderState_readOnly.of_eq fun ls => Keeps.bind (setLeaderState_voteFrame _) fun _ => ?_) s
  split
  · split
    · exact becomeFollower_voteFrame 0
    · exact keeps_pure _
  · exact becomeFollower_voteFrame 0

theorem transferLeadership_voteFrame (timeout : Nat) : Keeps VoteFrame (transferLeadership timeout) := by
  unfold transferLeadership
  dsimp only
  refine Keeps.bind checkIsLeader_readOnly.of_eq fun _ => Keeps.bind leaderState_readOnly.of_eq fun ls => ?_
  refine keeps_get_bind fun s => (?_ : Keeps VoteFrame _) s
  split
  · exact keeps_throw_bind _ _
  · refine Keeps.bind (setLeaderState_voteFrame _) fun _ => ?_
    split
    · exact sendTimeoutNow_voteFrame _
    · exact keeps_pure _

theorem handleReadQuorumReply_voteFrame (src : Nat) (reply : ReadQuorumReply) :
    Keeps VoteFrame (handleReadQuorumReply src reply) := by
  unfold handleReadQuorumReply
  dsimp only
  refine Keeps.bind leaderState_readOnly.of_eq fun ls => ?_
  split
  · refine Keeps.bind (setLeaderState_voteFrame _) fun _ => ?_
    split
    · exact keeps_pure _
    · split
      · exact keeps_pure _
      · exact Keeps.bind (setLeaderState_voteFrame _) fun _ => keeps_modify fun _ => VoteFrame.of_view rfl
  · exact keeps_pure _

theorem broadcastReadQuorumLoop_voteFrame (id : Nat) : ∀ ps, Keeps VoteFrame (broadcastReadQuorumLoop id ps)
  | [] => keeps_pure _
  | p :: ps => by
    unfold broadcastReadQuorumLoop
    dsimp only
    split
    · refine keeps_get_bind fun s => (?_ : Keeps VoteFrame _) s
      split
      · exact Keeps.bind (handleReadQuorumReply_voteFrame _ _) fun _ => broadcastReadQuorumLoop_voteFrame id ps
      · exact Keeps.bind (sendTo_voteFrame _ _ rfl) fun _ => broadcastReadQuorumLoop_voteFrame id ps
    · exact broadcastReadQuorumLoop_voteFrame id ps

theorem broadcastReadQuorum_voteFrame (id : Nat) : Keeps VoteFrame (broadcastReadQuorum id) :=
  Keeps.bind leaderState_readOnly.of_eq fun _ => broadcastReadQuorumLoop_voteFrame id _

/-- The re-broadcast of a pending read barrier that ends `maybe_commit` after a configuration change. -/
private theorem rebroadcast_voteFrame : Keeps VoteFrame (do
    match (← get).state with
    | .leader ls => if ls.lastReadId ≠ ls.maxReadIdWithQuorum then broadcastReadQuorum ls.lastReadId
    | _ => pure () : FsmM Unit) := by
  refine keeps_get_bind fun s => (?_ : Keeps VoteFrame _) s
  split
  · split
    · exact broadcastReadQuorum_voteFrame _
    · exact keeps_pure _
  · exact keeps_pure _

theorem maybeCommitAux_voteFrame : ∀ fuel, Keeps VoteFrame (maybeCommitAux fuel)
  | 0 => keeps_pure _
  | fuel + 1 => by
    rw [maybeCommitAux]
    dsimp only
    refine Keeps.bind leaderState_readOnly.of_eq fun ls => keeps_get_bind fun s => ?_
    split
    · exact keeps_pure _ s
    · split
      · split
        · exact keeps_pure _ s
        · refine keepsFrom_set_bind (VoteFrame.of_view rfl) ((?_ : Keeps VoteFrame _) _)
          split
          · split
            · refine keeps_get_bind fun s => keepsFrom_set_bind (VoteFrame.of_view rfl) ?_
              exact keeps_get_bind (fun _ => (Keeps.bind leaderState_readOnly.of_eq fun _ =>
                Keeps.bind (setLeaderState_voteFrame _) fun _ =>
                  Keeps.bind (maybeCommitAux_voteFrame fuel) fun _ => rebroadcast_voteFrame) _) _
            · refine Keeps.bind leaderState_readOnly.of_eq fun ls => ?_
              split
              · split
                · exact Keeps.bind (transferLeadership_voteFrame 0) fun _ => rebroadcast_voteFrame
                · exact rebroadcast_voteFrame
              · exact Keeps.bind (transferLeadership_voteFrame 0) fun _ => rebroadcast_voteFrame
          · exact keeps_pure _
      · exact keeps_throw _ s

theorem maybeCommit_voteFrame : Keeps VoteFrame maybeCommit := maybeCommitAux_voteFrame 2

theorem advanceStableIdx_voteFrame (idx : Nat) : Keeps VoteFrame (advanceStableIdx idx) := by
  unfold advanceStableIdx
  refine keeps_get_bind fun s => ?_
  refine KeepsFrom.bind (keeps_lift _ s) fun l s' hl => ?_
  obtain ⟨-, rfl⟩ := run_lift_eq_ok.1 hl
  refine keepsFrom_set_bind (VoteFrame.of_view rfl) ?_
  refine keeps_get_bind (fun _ => (?_ : Keeps VoteFrame _) _) _
  split
  · refine Keeps.bind leaderState_readOnly.of_eq fun ls => ?_
    split
    · exact Keeps.bind (setLeaderState_voteFrame _) fun _ => maybeCommit_voteFrame
    · exact keeps_pure _
  · exact keeps_pure _

theorem startReadBarrier_voteFrame (requester : Nat) : Keeps VoteFrame (startReadBarrier requester) := by
  unfold startReadBarrier
  dsimp only
  refine Keeps.bind checkIsLeader_readOnly.of_eq fun _ => Keeps.bind leaderState_readOnly.of_eq fun ls => ?_
  refine keeps_get_bind fun s => (?_ : Keeps VoteFrame _) s
  have hnext := fun (c : Nat) => Keeps.bind (R := VoteFrame) leaderState_readOnly.of_eq fun ls =>
    Keeps.bind (setLeaderState_voteFrame { ls with lastReadId := ls.lastReadId + 1, lastReadIdChanged := true })
      fun _ => keeps_pure (some (ls.lastReadId + 1, c))
  split
  · exact keeps_throw_bind _ _
  · split
    · split
      · exact keeps_pure _
      · split
        · split
          · exact Keeps.bind (replicateTo_voteFrame _ _) fun _ => hnext _
          · exact hnext _
        · exact hnext _
    · exact keeps_throw _

theorem appendEntriesReply_voteFrame (src : Nat) (reply : AppendReply) :
    Keeps VoteFrame (appendEntriesReply src reply) := by
  unfold appendEntriesReply
  dsimp only
  refine Keeps.bind leaderState_readOnly.of_eq fun ls => ?_
  have hlast : Keeps VoteFrame
      (do if ((← leaderState).tracker.find? src).isSome then replicateTo src false : FsmM Unit) :=
    Keeps.bind leaderState_readOnly.of_eq fun _ => Keeps.ite (replicateTo_voteFrame _ _) (keeps_pure _)
  have hcommit : Keeps VoteFrame
      (do maybeCommit; if !(← get).isLeader then return else (do
        if ((← leaderState).tracker.find? src).isSome then replicateTo src false : FsmM Unit)) :=
    Keeps.bind maybeCommit_voteFrame fun _ => Keeps.get_bind fun _ => Keeps.ite (keeps_pure _) hlast
  split
  · refine Keeps.ite (Keeps.bind (setLeaderState_voteFrame _) fun _ => keeps_pure _) ?_
    split
    · refine Keeps.bind (setLeaderState_voteFrame _) fun _ => Keeps.get_bind fun _ => ?_
      refine Keeps.ite ?_ hcommit
      exact Keeps.bind (sendTimeoutNow_voteFrame _) fun _ => Keeps.get_bind fun _ =>
        Keeps.ite (keeps_pure _) hcommit
    · refine Keeps.bind (setLeaderState_voteFrame _) fun _ => ?_
      refine Keeps.ite (Keeps.bind (replicateTo_voteFrame _ _) fun _ => keeps_pure _) ?_
      refine Keeps.ite (keeps_pure _) ?_
      exact Keeps.ite (keeps_throw_bind _ _) (Keeps.bind (setLeaderState_voteFrame _) fun _ => hlast)
  · exact keeps_pure _

theorem installSnapshotReply_voteFrame (src : Nat) (reply : SnapshotReply) :
    Keeps VoteFrame (installSnapshotReply src reply) := by
  unfold installSnapshotReply
  refine Keeps.bind leaderState_readOnly.of_eq fun ls => ?_
  split
  · split
    · exact keeps_pure _
    · refine Keeps.bind (setLeaderState_voteFrame _) fun _ => ?_
      split
      · exact replicateTo_voteFrame _ _
      · exact keeps_pure _
  · exact keeps_pure _

theorem becomeLeader_voteFrame : Keeps VoteFrame becomeLeader := by
  unfold becomeLeader
  refine keeps_get_bind fun s => ?_
  split
  · exact keeps_throw_bind _ _ s
  · refine keepsFrom_set_bind (VoteFrame.of_view rfl) ?_
    exact (Keeps.bind (addEntry_voteFrame _) fun _ => Keeps.get_bind fun _ =>
      Keeps.bind leaderState_readOnly.of_eq fun _ => setLeaderState_voteFrame _) _

theorem tickLeaderLoop_voteFrame : ∀ ps, Keeps VoteFrame (tickLeaderLoop ps)
  | [] => keeps_pure _
  | p :: ps => by
    unfold tickLeaderLoop
    dsimp only
    refine Keeps.get_bind fun s => Keeps.ite ?_ (tickLeaderLoop_voteFrame ps)
    refine Keeps.bind leaderState_readOnly.of_eq fun _ => Keeps.bind (setLeaderState_voteFrame _) fun _ => ?_
    exact Keeps.ite (Keeps.bind (replicateTo_voteFrame _ _) fun _ => tickLeaderLoop_voteFrame ps)
      (tickLeaderLoop_voteFrame ps)

theorem tickLeader_voteFrame (isAlive : Nat → Bool) : Keeps VoteFrame (tickLeader isAlive) := by
  unfold tickLeader
  dsimp only
  refine Keeps.get_bind fun s => ?_
  split
  · exact Keeps.bind (becomeFollower_voteFrame 0) fun _ => keeps_pure _
  · refine Keeps.bind leaderState_readOnly.of_eq fun ls => Keeps.bind (tickLeaderLoop_voteFrame _) fun _ =>
      Keeps.bind leaderState_readOnly.of_eq fun ls' => ?_
    refine Keeps.ite_seq (broadcastReadQuorum_voteFrame _)
      (Keeps.ite_seq (keeps_modify fun _ => VoteFrame.of_view rfl) ?_)
    refine Keeps.bind leaderState_readOnly.of_eq fun ls => Keeps.get_bind fun s => ?_
    split
    · split
      · refine Keeps.ite (Keeps.ite ?_ ?_) (keeps_pure _)
        · exact Keeps.bind (setLeaderState_voteFrame _) fun _ => keeps_modify fun _ => VoteFrame.of_view rfl
        · split
          · exact sendTo_voteFrame _ _ rfl
          · exact keeps_pure _
      · exact keeps_pure _
    · exact keeps_pure _

theorem maybeResendVoteRequest_voteFrame (dst : Nat) : Keeps VoteFrame (maybeResendVoteRequest dst) := by
  unfold maybeResendVoteRequest
  refine Keeps.get_bind fun s => ?_
  split
  · exact Keeps.ite (sendTo_voteFrame _ _ rfl) (keeps_pure _)
  · exact keeps_throw _

theorem appendEntries_voteFrame (src : Nat) (req : AppendRequest) : Keeps VoteFrame (appendEntries src req) := by
  unfold appendEntries
  dsimp only
  refine keeps_get_bind fun s => ?_
  have hreply := fun (lastNewIdx : Nat) => Keeps.bind (R := VoteFrame)
    (advanceCommitIdx_voteFrame (min req.leaderCommitIdx lastNewIdx)) fun _ => Keeps.get_bind fun s =>
      sendTo_voteFrame src
        (.appendReply { currentTerm := s.currentTerm, commitIdx := s.commitIdx, result := .accepted lastNewIdx }) rfl
  split
  · exact keeps_throw_bind _ _ s
  · split
    · exact (Keeps.bind (sendTo_voteFrame _ _ rfl) fun _ => keeps_pure _) s
    · split
      · exact (Keeps.bind (keeps_pure _) hreply) s
      · refine KeepsFrom.bind (keeps_lift _ s) fun x s' hx => ?_
        obtain ⟨-, rfl⟩ := run_lift_eq_ok.1 hx
        exact keepsFrom_set_bind (VoteFrame.of_view rfl) ((Keeps.bind (keeps_pure _) hreply) _)

theorem applySnapshot_voteFrame (snp : SnapshotDescriptor) (te tb : Nat) (isLocal : Bool) :
    Keeps VoteFrame (applySnapshot snp te tb isLocal) := by
  unfold applySnapshot
  dsimp only
  refine keeps_get_bind fun s => ?_
  split
  · split
    · exact keepsFrom_set_bind (VoteFrame.of_view rfl) (keeps_pure _ _)
    · refine KeepsFrom.bind (keeps_lift _ s) fun x s' hx => ?_
      obtain ⟨-, rfl⟩ := run_lift_eq_ok.1 hx
      exact keepsFrom_set_bind (VoteFrame.of_view rfl) (keeps_pure _ _)
  · exact keeps_throw_bind _ _ s

theorem sendPingMessages_voteFrame (isAlive : Nat → Bool) : Keeps VoteFrame (sendPingMessages isAlive) := by
  unfold sendPingMessages
  dsimp only
  refine keeps_get_bind fun s => ?_
  split
  · refine keepsFrom_set (VoteFrame.of_append ?_)
    simp [votesCast, castVote]
  · exact keeps_pure _ s

theorem flushLeader_voteFrame (diff : Nat) : Keeps VoteFrame (flushLeader diff) := by
  unfold flushLeader
  dsimp only
  refine Keeps.get_bind fun _ => Keeps.ite (Keeps.bind leaderState_readOnly.of_eq fun ls => ?_) (keeps_pure _)
  have hreplicate : Keeps VoteFrame (if diff ≠ 0 then replicate else pure ()) :=
    Keeps.ite replicate_voteFrame (keeps_pure _)
  exact Keeps.ite (Keeps.bind (broadcastReadQuorum_voteFrame _) fun _ => Keeps.bind leaderState_readOnly.of_eq
    fun _ => Keeps.bind (setLeaderState_voteFrame _) fun _ => hreplicate) hreplicate

theorem pingLeaderOp_voteFrame (isAlive : Nat → Bool) : Keeps VoteFrame (pingLeaderOp isAlive) := by
  unfold pingLeaderOp
  refine Keeps.get_bind fun s => Keeps.ite (keeps_throw_bind _ _) ?_
  exact Keeps.bind (keeps_modify fun _ => VoteFrame.of_view rfl) fun _ => sendPingMessages_voteFrame isAlive

theorem stop_voteFrame : Keeps VoteFrame stop :=
  Keeps.get_bind fun _ => Keeps.ite (becomeFollower_voteFrame 0) (keeps_pure _)

/-! ### Handlers that move the vote -/

/-- What a server keeps of its votes: no message waits in its output, and the votes among the messages handed out
before (`sent`) and those pending agree with its term and vote. -/
structure VoteInv (sent : List (Nat × RpcMessage)) (s : Fsm) : Prop where
  outputMessages : s.output.messages = []
  ballots : Ballots.Consistent 0 (votesCast (sent ++ s.messages)) s.currentTerm s.votedFor

theorem VoteFrame.voteInv {s s' : Fsm} (h : VoteFrame s s') {sent : List (Nat × RpcMessage)}
    (hi : VoteInv sent s) : VoteInv sent s' := by
  refine ⟨h.outputMessages.trans hi.outputMessages, ?_⟩
  rw [votesCast_append, h.votes, ← votesCast_append, h.currentTerm, h.votedFor]
  exact hi.ballots

/-- A step of a voter: its term does not go down, and its votes stay consistent with whatever it sent before. -/
structure VoteStep (s s' : Fsm) : Prop where
  currentTerm_le : s.currentTerm ≤ s'.currentTerm
  inv : ∀ sent, VoteInv sent s → VoteInv sent s'

namespace VoteStep

instance : Std.Refl VoteStep := ⟨fun _ => ⟨le_rfl, fun _ => id⟩⟩

instance : IsTrans Fsm VoteStep :=
  ⟨fun _ _ _ h₁ h₂ => ⟨h₁.currentTerm_le.trans h₂.currentTerm_le, fun sent hi => h₂.inv sent (h₁.inv sent hi)⟩⟩

end VoteStep

theorem VoteFrame.voteStep {s s' : Fsm} (h : VoteFrame s s') : VoteStep s s' :=
  ⟨h.currentTerm.ge, fun _ => h.voteInv⟩

theorem voteStep_of_frame {α : Type} {x : FsmM α} (h : Keeps VoteFrame x) : Keeps VoteStep x :=
  h.mono fun _ _ => VoteFrame.voteStep

theorem updateCurrentTerm_eq_ok {t : Nat} {s s' : Fsm} {u : PUnit} (h : (updateCurrentTerm t).run s = .ok (u, s')) :
    s.currentTerm < t ∧ s' = { s with currentTerm := t, votedFor := 0 } := by
  unfold updateCurrentTerm at h
  obtain ⟨a, s₁, hg, h₁⟩ := run_bind_eq_ok.1 h
  obtain ⟨rfl, rfl⟩ := run_get_eq_ok.1 hg
  split at h₁
  · exact ⟨‹_›, run_set_eq_ok.1 h₁⟩
  · exact absurd h₁ run_throw_ne_ok

/-- A new term clears the vote. -/
theorem updateCurrentTerm_voteStep (t : Nat) : Keeps VoteStep (updateCurrentTerm t) := by
  intro s u s' h
  obtain ⟨ht, rfl⟩ := updateCurrentTerm_eq_ok h
  exact ⟨ht.le, fun _ hi => ⟨hi.outputMessages, hi.ballots.newTerm ht⟩⟩

/-- Recording a vote for `src` and granting it, in the current term: allowed when the server voted for `src`
already or has not voted. -/
theorem keepsFrom_grant {s : Fsm} {src : Nat} (hv : s.votedFor = src ∨ s.votedFor = 0) :
    KeepsFrom VoteStep s (do
      set { s with lastElectionTime := s.now, votedFor := src }
      sendTo src (.voteReply { currentTerm := s.currentTerm, voteGranted := true, isPrevote := false })) := by
  intro u s' h
  obtain ⟨_, s₁, hs, hsend⟩ := run_bind_eq_ok.1 h
  rw [run_set_eq_ok] at hs
  subst hs
  rw [sendTo, run_modify_eq_ok] at hsend
  subst hsend
  refine ⟨le_rfl, fun sent hi => ⟨hi.outputMessages, ?_⟩⟩
  show Ballots.Consistent 0 (votesCast (sent ++ (s.messages ++ _))) s.currentTerm src
  rw [← List.append_assoc, votesCast_append]
  by_cases hsrc : src = 0
  · -- A grant to no server counts as no vote; the vote was none and stays so.
    subst hsrc
    have hv0 : s.votedFor = 0 := hv.elim id id
    have hb := hi.ballots
    rw [hv0] at hb
    rwa [votesCast_singleton_of_none (by simp [castVote]), List.append_nil]
  · rw [votesCast_grant hsrc]
    exact hi.ballots.cast hsrc hv

/-- A pre-vote or a refusal casts no vote. -/
theorem castVote_voteReply_eq_none {dst term : Nat} {granted isPrevote : Bool}
    (h : granted = false ∨ isPrevote = true) :
    castVote (dst, .voteReply { currentTerm := term, voteGranted := granted, isPrevote }) = none := by
  rcases h with rfl | rfl <;> simp [castVote]

/-- `request_vote` grants a real vote only where `keepsFrom_grant` allows it. -/
theorem requestVote_voteStep (src : Nat) (req : VoteRequest) : Keeps VoteStep (requestVote src req) := by
  unfold requestVote
  dsimp only
  refine keeps_get_bind fun s => ?_
  split
  · exact keeps_throw_bind _ _ s
  · rename_i hterm
    split
    · rename_i hgrant
      split
      · -- A real vote, in the server's term.
        rename_i hreal
        have hpre : req.isPrevote = false := by simpa using hreal
        have hcur : req.currentTerm = s.currentTerm := by
          by_contra hne
          exact hterm ⟨by simp [hpre], Ne.symm hne⟩
        have hv : s.votedFor = src ∨ s.votedFor = 0 := by
          simp only [hpre, Bool.false_and, Bool.or_false, Bool.and_eq_true, Bool.or_eq_true, beq_iff_eq]
            at hgrant
          rcases hgrant.1 with h | h
          · exact .inl h
          · exact .inr h.1
        rw [hpre, hcur]
        exact keepsFrom_grant hv
      · rename_i hreal
        have hpre : req.isPrevote = true := by simpa using hreal
        exact (Keeps.bind (keeps_pure _) fun _ => voteStep_of_frame
          (sendTo_voteFrame _ _ (castVote_voteReply_eq_none (.inr hpre)))) s
    · exact voteStep_of_frame (sendTo_voteFrame _ _ (castVote_voteReply_eq_none (.inl rfl))) s

/-- The loop of `become_candidate` sends requests, which cast no vote, and in a real election records the
candidate's vote for itself. -/
structure CampaignFrame (isPrevote : Bool) (s s' : Fsm) : Prop where
  currentTerm : s'.currentTerm = s.currentTerm
  myId : s'.myId = s.myId
  outputMessages : s'.output.messages = s.output.messages
  votes : votesCast s'.messages = votesCast s.messages
  votedFor : s'.votedFor = s.votedFor ∨ isPrevote = false ∧ s'.votedFor = s.myId

namespace CampaignFrame

instance (isPrevote : Bool) : Std.Refl (CampaignFrame isPrevote) := ⟨fun _ => ⟨rfl, rfl, rfl, rfl, .inl rfl⟩⟩

instance (isPrevote : Bool) : IsTrans Fsm (CampaignFrame isPrevote) := by
  refine ⟨fun _ _ _ h₁ h₂ => ⟨h₂.currentTerm.trans h₁.currentTerm, h₂.myId.trans h₁.myId,
    h₂.outputMessages.trans h₁.outputMessages, h₂.votes.trans h₁.votes, ?_⟩⟩
  rcases h₂.votedFor with h | h
  · rcases h₁.votedFor with h' | h'
    · exact .inl (h.trans h')
    · exact .inr ⟨h'.1, h.trans (h'.2.trans rfl)⟩
  · exact .inr ⟨h.1, h.2.trans h₁.myId⟩

end CampaignFrame

theorem campaignLoop_campaignFrame (term : Nat) (isPrevote isLeadershipTransfer : Bool) :
    ∀ ids v, Keeps (CampaignFrame isPrevote) (campaignLoop term isPrevote isLeadershipTransfer ids v)
  | [], _ => keeps_pure _
  | id :: ids, v => by
    unfold campaignLoop
    dsimp only
    refine keeps_get_bind fun s => ?_
    split
    · -- The candidate's own vote, recorded unless a pre-vote.
      split
      · rename_i hreal
        exact keepsFrom_set_bind ⟨rfl, rfl, rfl, rfl, .inr ⟨by simpa using hreal, rfl⟩⟩
          (campaignLoop_campaignFrame term isPrevote isLeadershipTransfer ids _ _)
      · exact campaignLoop_campaignFrame term isPrevote isLeadershipTransfer ids _ s
    · refine (Keeps.bind (keeps_modify fun _ => ⟨rfl, rfl, rfl, ?_, .inl rfl⟩) fun _ =>
        campaignLoop_campaignFrame term isPrevote isLeadershipTransfer ids v) s
      simp [votesCast, castVote]

/-- The election proper of `become_candidate`: a real election moves to a new term without a vote, and the
candidate then votes for itself, in a term in which it has cast no vote. -/
private theorem election_voteStep (isPrevote isLeadershipTransfer : Bool) (term : Nat) (votes : Votes) :
    Keeps VoteStep (do
      if !isPrevote then updateCurrentTerm term
      let votes ← campaignLoop term isPrevote isLeadershipTransfer votes.voters votes
      modify fun s => { s with state := .candidate votes isPrevote }
      return votes.tallyVotes == .won : FsmM Bool) := by
  -- The requests and the count, from a state without a vote unless a pre-vote.
  have hcount : ∀ s₁ : Fsm, s₁.votedFor = 0 ∨ isPrevote = true → KeepsFrom VoteStep s₁ (do
      let votes ← campaignLoop term isPrevote isLeadershipTransfer votes.voters votes
      modify fun s => { s with state := .candidate votes isPrevote }
      return votes.tallyVotes == .won : FsmM Bool) := by
    intro s₁ hv₁ b s' h
    obtain ⟨v', s₂, hloop, h⟩ := run_bind_eq_ok.1 h
    -- The count goes into the role, which the vote does not look at.
    have hmod : Keeps VoteFrame (do
        modify fun s : Fsm => { s with state := .candidate v' isPrevote }
        return v'.tallyVotes == .won : FsmM Bool) :=
      Keeps.bind (keeps_modify fun _ => VoteFrame.of_view rfl) fun _ => keeps_pure _
    have h₃ : VoteStep s₂ s' := voteStep_of_frame hmod s₂ h
    obtain ⟨ht, -, ho, hv, hvf⟩ := campaignLoop_campaignFrame _ _ _ _ _ s₁ hloop
    refine trans_of VoteStep ⟨ht.ge, fun sent hi => ⟨ho.trans hi.outputMessages, ?_⟩⟩ h₃
    rw [votesCast_append, hv, ← votesCast_append, ht]
    rcases hvf with hvf | ⟨hpre, -⟩
    · exact hvf ▸ hi.ballots
    · -- The candidate's vote for itself, in a term in which it has cast none.
      have hb := hi.ballots
      rw [hv₁.resolve_right (by simp [hpre])] at hb
      exact hb.record hb.not_mem_of_nobody s₂.votedFor
  intro s
  cases isPrevote
  · exact KeepsFrom.bind (updateCurrentTerm_voteStep term s) fun _ s₁ h₁ =>
      hcount s₁ (.inl (by rw [(updateCurrentTerm_eq_ok h₁).2]))
  · exact hcount s (.inr rfl)

theorem campaign_voteStep (isPrevote isLeadershipTransfer : Bool) (rnd : Nat) :
    Keeps VoteStep (campaign isPrevote isLeadershipTransfer rnd) := by
  unfold campaign
  dsimp only
  refine keeps_get_bind fun s => keepsFrom_set_bind (VoteFrame.of_view (by split_ifs <;> rfl)).voteStep ?_
  refine (Keeps.bind (voteStep_of_frame (resetElectionTimeout_voteFrame rnd)) fun _ => Keeps.bind ?_ fun _ =>
    Keeps.get_bind fun s => ?_) _
  · exact keeps_modify fun _ => (VoteFrame.of_view (by rfl)).voteStep
  -- A server that is no voter gives up, unless it voted in the previous configuration.
  have hgive := Keeps.bind (voteStep_of_frame (becomeFollower_voteFrame 0)) fun _ => keeps_pure (R := VoteStep) false
  refine Keeps.ite (Keeps.ite hgive ?_) (election_voteStep _ _ _ _)
  split
  · exact Keeps.ite hgive (election_voteStep _ _ _ _)
  · exact keeps_throw_bind _ _

theorem becomeCandidate_voteStep (isPrevote isLeadershipTransfer : Bool) (rnd : Nat) :
    Keeps VoteStep (becomeCandidate isPrevote isLeadershipTransfer rnd) := by
  unfold becomeCandidate
  have hleader := voteStep_of_frame becomeLeader_voteFrame
  refine Keeps.bind (campaign_voteStep _ _ _) fun won => Keeps.ite ?_ (keeps_pure _)
  exact Keeps.ite (Keeps.bind (campaign_voteStep _ _ _) fun _ => Keeps.ite hleader (keeps_pure _)) hleader

theorem requestVoteReply_voteStep (src : Nat) (reply : VoteReply) (rnd : Nat) :
    Keeps VoteStep (requestVoteReply src reply rnd) := by
  unfold requestVoteReply
  refine keeps_get_bind fun s => ?_
  split
  · dsimp only
    split
    · exact keeps_pure _ s
    · refine keepsFrom_set_bind (VoteFrame.of_view (by rfl)).voteStep ?_
      split
      · exact keeps_pure _ _
      · exact Keeps.ite (becomeCandidate_voteStep _ _ _) (voteStep_of_frame becomeLeader_voteFrame) _
      · exact voteStep_of_frame (becomeFollower_voteFrame 0) _
  · exact keeps_throw _ s

/-! ### Messages, ticks and output -/

theorem dispatch_voteStep (src : Nat) (msg : RpcMessage) (rnd : Nat) : Keeps VoteStep (dispatch src msg rnd) := by
  unfold dispatch
  refine Keeps.get_bind fun s => ?_
  -- One goal per arm of the match on the role and the message; votes are handled by their own handlers.
  split
  · exact keeps_pure _
  · exact voteStep_of_frame (appendEntriesReply_voteFrame _ _)
  · exact requestVote_voteStep _ _
  · exact voteStep_of_frame (sendTo_voteFrame _ _ rfl)
  · exact voteStep_of_frame (installSnapshotReply_voteFrame _ _)
  · exact voteStep_of_frame (handleReadQuorumReply_voteFrame _ _)
  · exact requestVote_voteStep _ _
  · exact requestVoteReply_voteStep _ _ _
  · exact voteStep_of_frame (sendTo_voteFrame _ _ rfl)
  · exact voteStep_of_frame (maybeResendVoteRequest_voteFrame _)
  · exact voteStep_of_frame (appendEntries_voteFrame _ _)
  · exact requestVote_voteStep _ _
  · exact voteStep_of_frame (Keeps.bind (applySnapshot_voteFrame _ _ _ _) fun _ => sendTo_voteFrame _ _ rfl)
  · exact becomeCandidate_voteStep _ _ _
  · exact voteStep_of_frame (Keeps.bind (advanceCommitIdx_voteFrame _) fun _ => Keeps.get_bind fun _ =>
      sendTo_voteFrame _ _ rfl)
  · exact keeps_pure _

theorem step_voteStep (src : Nat) (msg : RpcMessage) (rnd : Nat) : Keeps VoteStep (step src msg rnd) := by
  unfold step
  dsimp only
  have hd := dispatch_voteStep src msg rnd
  refine keeps_get_bind fun s => ?_
  split
  · exact keeps_throw_bind _ _ s
  split
  · -- A newer term: the server becomes a follower in it first, unless the message is a pre-vote.
    refine (Keeps.ite (keeps_pure _) (Keeps.ite ?_ hd)) s
    exact Keeps.bind (voteStep_of_frame (becomeFollower_voteFrame _)) fun _ =>
      Keeps.bind (updateCurrentTerm_voteStep _) fun _ => hd
  split
  · -- An older term: at most a refusal, and the message is not handled.
    have hreply := fun m (hm : castVote (src, m) = none) =>
      Keeps.bind (voteStep_of_frame (sendTo_voteFrame src m hm)) fun _ => keeps_pure (R := VoteStep) ()
    split
    · exact hreply _ rfl s
    · exact hreply _ rfl s
    · exact hreply _ rfl s
    · exact Keeps.ite (hreply _ (castVote_voteReply_eq_none (.inl rfl))) (keeps_pure _) s
    · exact Keeps.ite (Keeps.bind (voteStep_of_frame (maybeResendVoteRequest_voteFrame _)) fun _ => keeps_pure _)
        (keeps_pure _) s
    · exact keeps_pure _ s
  · -- The current term: a message from its leader makes a candidate or a follower without a leader follow it.
    have hheard : Keeps VoteStep (do modify fun s : Fsm => { s with lastElectionTime := s.now }; dispatch src msg rnd) :=
      Keeps.bind (keeps_modify fun _ => (VoteFrame.of_view (by rfl)).voteStep) fun _ => hd
    have hfollow := Keeps.bind (voteStep_of_frame (becomeFollower_voteFrame src)) fun _ => hheard
    split
    iterate 3
      split
      · exact hfollow s
      · exact keepsFrom_set_bind (VoteFrame.of_view (by rfl)).voteStep (hheard _)
      · exact hheard s
    exact hd s

theorem tick_voteStep (isAlive : Nat → Bool) (rnd : Nat) : Keeps VoteStep (tick isAlive rnd) := by
  unfold tick
  dsimp only
  refine Keeps.bind (keeps_modify fun _ => (VoteFrame.of_view (by rfl)).voteStep) fun _ => Keeps.get_bind fun s => ?_
  have hping := Keeps.get_bind (R := VoteStep) fun (s : Fsm) =>
    Keeps.ite (c := (s.isFollower && s.currentLeader == 0 && s.pingLeader) = true)
      (voteStep_of_frame (sendPingMessages_voteFrame isAlive)) (keeps_pure ())
  refine Keeps.ite (Keeps.bind (voteStep_of_frame (tickLeader_voteFrame _)) fun _ => hping) (Keeps.ite ?_ ?_)
  · exact Keeps.bind (keeps_modify fun _ => (VoteFrame.of_view (by rfl)).voteStep) fun _ => hping
  · exact Keeps.ite (Keeps.bind (becomeCandidate_voteStep _ _ _) fun _ => hping) hping

/-- `get_output()` hands out the pending messages, which the server then has sent. -/
theorem takeOutput_voteInv {diff : Nat} {s s' : Fsm} {o : FsmOutput} (h : (takeOutput diff).run s = .ok (o, s'))
    {sent : List (Nat × RpcMessage)} (hi : VoteInv sent s) :
    o.messages = s.messages ∧ s'.currentTerm = s.currentTerm ∧ VoteInv (sent ++ s.messages) s' := by
  unfold takeOutput at h
  dsimp only at h
  obtain ⟨s0, s1, hg, h1⟩ := run_bind_eq_ok.1 h
  obtain ⟨hs0, hs1⟩ := run_get_eq_ok.1 hg
  subst s0 s1
  obtain ⟨les, s2, hl, h2⟩ := run_bind_eq_ok.1 h1
  obtain ⟨-, hs2⟩ := run_lift_eq_ok.1 hl
  subst s2
  obtain ⟨cs, s3, hc, h3⟩ := run_bind_eq_ok.1 h2
  obtain ⟨-, hs3⟩ := run_lift_eq_ok.1 hc
  subst s3
  obtain ⟨u, s4, hset, h4⟩ := run_bind_eq_ok.1 h3
  rw [run_set_eq_ok] at hset
  -- The output took the pending messages, and the ones left are the output's, which were none.
  have hi₄ : VoteInv (sent ++ s.messages) s4 := by
    subst hset
    refine ⟨rfl, ?_⟩
    show Ballots.Consistent 0 (votesCast (sent ++ s.messages ++ s.output.messages)) s.currentTerm s.votedFor
    rw [hi.outputMessages, List.append_nil]
    exact hi.ballots
  split at h4
  · obtain ⟨u, s5, hadv, h5⟩ := run_bind_eq_ok.1 h4
    obtain ⟨rfl, rfl⟩ := run_pure_eq_ok.1 h5
    have hf := advanceStableIdx_voteFrame _ _ hadv
    exact ⟨rfl, hf.currentTerm.trans (by rw [hset]), hf.voteInv hi₄⟩
  · obtain ⟨rfl, rfl⟩ := run_pure_eq_ok.1 h4
    exact ⟨rfl, by rw [hset], hi₄⟩

theorem getOutput_voteInv {s s' : Fsm} {o : FsmOutput} (h : getOutput.run s = .ok (o, s'))
    {sent : List (Nat × RpcMessage)} (hi : VoteInv sent s) :
    s.currentTerm ≤ s'.currentTerm ∧ VoteInv (sent ++ o.messages) s' := by
  unfold getOutput at h
  obtain ⟨s0, s1, hg, h1⟩ := run_bind_eq_ok.1 h
  obtain ⟨rfl, rfl⟩ := run_get_eq_ok.1 hg
  obtain ⟨u, s₁, hflush, htake⟩ := run_bind_eq_ok.1 h1
  have hf := flushLeader_voteFrame _ _ hflush
  obtain ⟨hmsgs, hterm, hi'⟩ := takeOutput_voteInv htake (hf.voteInv hi)
  rw [hmsgs]
  exact ⟨(hterm.trans hf.currentTerm).ge, hi'⟩

/-! ### Runs -/

/-- One call of an entry point: the term does not go down, and what it hands out joins what was sent. -/
theorem Op.exec_voteInv {op : Op} {s s' : Fsm} {o : Option FsmOutput} (h : op.exec.run s = .ok (o, s'))
    {sent : List (Nat × RpcMessage)} (hi : VoteInv sent s) :
    s.currentTerm ≤ s'.currentTerm ∧ VoteInv (sent ++ o.toList.flatMap (·.messages)) s' := by
  -- Every entry point but `get_output` hands out nothing.
  have hnone : ∀ {α : Type} {x : FsmM α}, Keeps VoteStep x →
      (x >>= fun _ => pure none : FsmM (Option FsmOutput)).run s = .ok (o, s') →
        s.currentTerm ≤ s'.currentTerm ∧ VoteInv (sent ++ o.toList.flatMap (·.messages)) s' := by
    intro α x hx hr
    obtain ⟨a, s₁, hxr, hp⟩ := run_bind_eq_ok.1 hr
    obtain ⟨rfl, rfl⟩ := run_pure_eq_ok.1 hp
    have hs := hx s hxr
    rw [Option.toList_none, List.flatMap_nil, List.append_nil]
    exact ⟨hs.currentTerm_le, hs.inv sent hi⟩
  cases op with
  | tick isAlive rnd => exact hnone (tick_voteStep isAlive rnd) h
  | step src msg rnd => exact hnone (step_voteStep src msg rnd) h
  | addEntry data => exact hnone (voteStep_of_frame (addEntry_voteFrame data)) h
  | getOutput =>
    obtain ⟨out, s₁, hget, hp⟩ := run_bind_eq_ok.1 h
    obtain ⟨rfl, rfl⟩ := run_pure_eq_ok.1 hp
    rw [Option.toList_some, List.flatMap_singleton]
    exact getOutput_voteInv hget hi
  | applySnapshot snp te tb isLocal => exact hnone (voteStep_of_frame (applySnapshot_voteFrame snp te tb isLocal)) h
  | transferLeadership timeout => exact hnone (voteStep_of_frame (transferLeadership_voteFrame timeout)) h
  | startReadBarrier requester => exact hnone (voteStep_of_frame (startReadBarrier_voteFrame requester)) h
  | pingLeader isAlive => exact hnone (voteStep_of_frame (pingLeaderOp_voteFrame isAlive)) h
  | stop => exact hnone (voteStep_of_frame stop_voteFrame) h

/-- Along a run, the term does not go down and the votes stay consistent with everything handed out. -/
theorem Run.voteInv {s t : Fsm} {outs : List FsmOutput} (hr : Run s outs t) :
    ∀ {sent : List (Nat × RpcMessage)}, VoteInv sent s →
      s.currentTerm ≤ t.currentTerm ∧ VoteInv (sent ++ outs.flatMap (·.messages)) t := by
  induction hr with
  | nil s => exact fun hi => ⟨le_rfl, by rw [List.flatMap_nil, List.append_nil]; exact hi⟩
  | cons op hop _ ih =>
    intro sent hi
    obtain ⟨hle, hi₁⟩ := Op.exec_voteInv hop hi
    obtain ⟨hle', hi'⟩ := ih hi₁
    refine ⟨hle.trans hle', ?_⟩
    rwa [List.flatMap_append, ← List.append_assoc]

/-- The constructor starts from the term and vote it is given, with nothing sent; a group of one campaigns at
once. -/
theorem create_voteInv {myId term votedFor commitIdx rnd : Nat} {log : Log} {config : FsmConfig} {s₀ : Fsm}
    {sent : List (Nat × RpcMessage)} (hsent : Ballots.Consistent 0 (votesCast sent) term votedFor)
    (h : create myId term votedFor log commitIdx config rnd = .ok s₀) : term ≤ s₀.currentTerm ∧ VoteInv sent s₀ := by
  unfold create at h
  dsimp only at h
  by_cases hid : myId = 0
  · rw [if_pos hid, except_throw_bind] at h
    exact absurd h except_throw_ne_ok
  rw [if_neg hid] at h
  obtain ⟨⟨u, s₁⟩, hstart, hret⟩ := except_bind_eq_ok.1 h
  cases except_pure_eq_ok.1 hret
  have hs := (Keeps.ite (becomeCandidate_voteStep _ _ _) (voteStep_of_frame (resetElectionTimeout_voteFrame _)))
    _ hstart
  refine ⟨hs.currentTerm_le, hs.inv sent ⟨rfl, ?_⟩⟩
  rw [List.append_nil]
  exact hsent

end Fsm

open Fsm in
/-- A server casts its real votes to one candidate per term.  Started from a persisted term and vote with which
the votes it cast before (`sent`) agree, along every run of its fsm the votes among everything it has handed out
and still has pending go to one server in each term, none is for a later term than the server's, those of its term
are for the server it voted for, and its term has not gone down. -/
theorem votes_once_per_term {myId term votedFor commitIdx rnd : Nat} {log : Log} {config : FsmConfig}
    {s₀ t : Fsm} {outs : List FsmOutput} {sent : List (Nat × RpcMessage)}
    (hsent : Ballots.Consistent 0 (votesCast sent) term votedFor)
    (hs₀ : create myId term votedFor log commitIdx config rnd = .ok s₀) (hr : Run s₀ outs t) :
    (∀ c c' T, (c, T) ∈ votesCast (sent ++ outs.flatMap (·.messages) ++ t.messages) →
      (c', T) ∈ votesCast (sent ++ outs.flatMap (·.messages) ++ t.messages) → c = c') ∧
    (∀ c T, (c, T) ∈ votesCast (sent ++ outs.flatMap (·.messages) ++ t.messages) → T ≤ t.currentTerm) ∧
    (∀ c, (c, t.currentTerm) ∈ votesCast (sent ++ outs.flatMap (·.messages) ++ t.messages) → c = t.votedFor) ∧
    term ≤ t.currentTerm := by
  obtain ⟨hle₀, hi₀⟩ := create_voteInv hsent hs₀
  obtain ⟨hle, hi⟩ := hr.voteInv hi₀
  exact ⟨hi.ballots.unique, hi.ballots.term_le, hi.ballots.current, hle₀.trans hle⟩

open Fsm in
/-- The third server of a fresh group of three grants its vote in term 1 to the first, which asked for it. -/
theorem votes_once_per_term_granted :
    ∃ s₀ t, Fsm.create 3 0 0 ⟨{ config := { current := [⟨1, true⟩, ⟨2, true⟩, ⟨3, true⟩] } }, [], 1, 0, 0, 0, 0, 0⟩ 0
        { appendRequestThreshold := 1, maxLogSize := 1, enablePrevoting := false } 0 = .ok s₀ ∧ Run s₀ [] t ∧
      t.messages = [(1, .voteReply { currentTerm := 1, voteGranted := true, isPrevote := false })] ∧
      ((∀ c c' T, (c, T) ∈ votesCast ([] ++ ([] : List FsmOutput).flatMap (·.messages) ++ t.messages) →
        (c', T) ∈ votesCast ([] ++ ([] : List FsmOutput).flatMap (·.messages) ++ t.messages) → c = c') ∧
      (∀ c T, (c, T) ∈ votesCast ([] ++ ([] : List FsmOutput).flatMap (·.messages) ++ t.messages) →
        T ≤ t.currentTerm) ∧
      (∀ c, (c, t.currentTerm) ∈ votesCast ([] ++ ([] : List FsmOutput).flatMap (·.messages) ++ t.messages) →
        c = t.votedFor) ∧
      0 ≤ t.currentTerm) := by
  have hok : ((Fsm.create 3 0 0 ⟨{ config := { current := [⟨1, true⟩, ⟨2, true⟩, ⟨3, true⟩] } }, [], 1, 0, 0, 0, 0, 0⟩
      0 { appendRequestThreshold := 1, maxLogSize := 1, enablePrevoting := false } 0 >>= fun s =>
        (Op.step 1 (.voteRequest ⟨1, 0, 0, false, false⟩) 0).exec.run s).toOption.map fun x => x.2.messages) =
      some [(1, .voteReply { currentTerm := 1, voteGranted := true, isPrevote := false })] := by
    decide +kernel
  rcases hx : (Fsm.create 3 0 0 ⟨{ config := { current := [⟨1, true⟩, ⟨2, true⟩, ⟨3, true⟩] } }, [], 1, 0, 0, 0, 0, 0⟩
      0 { appendRequestThreshold := 1, maxLogSize := 1, enablePrevoting := false } 0 >>= fun s =>
        (Op.step 1 (.voteRequest ⟨1, 0, 0, false, false⟩) 0).exec.run s) with e | ⟨o, t⟩
  · rw [hx] at hok
    cases hok
  rw [hx] at hok
  obtain ⟨s₀, hs₀, hrun⟩ := except_bind_eq_ok.1 hx
  -- A message hands nothing out.
  have ho : o = none := by
    obtain ⟨_, _, -, hp⟩ := run_bind_eq_ok.1 hrun
    exact (run_pure_eq_ok.1 hp).1.symm
  subst ho
  have hr : Run s₀ [] t := Run.cons _ hrun (Run.nil t)
  exact ⟨s₀, t, hs₀, hr, Option.some_injective _ hok, votes_once_per_term (Ballots.Consistent.nil 0 0 0) hs₀ hr⟩

end Scylla.Raft
