import Scylla.Raft.Fsm.Step

/-!
# What the fsm's handlers leave alone

The order in which a server applies entries and snapshots is decided by a few fields of the fsm: the state
observed by the last `get_output()`, the snapshot of the log, the output's pending snapshot and committed entries,
and the commit index.  `ApplyFrame s s'` says that `s'` agrees with `s` on all of them but the commit index, which
may only have grown, and that a log with consecutive indexes stays so.

Every handler of the fsm other than `apply_snapshot` and `get_output` keeps the frame: this module proves it
function by function, each from the lemmas of the functions it calls (`StateExcept.Keeps`), in the order of the
source files.  Log changes are appends at the next index (`keepsFrom_emplaceBack_bind`), `maybe_append`, and
`stable_to`.
-/

namespace Scylla.Raft

open StateExcept

namespace Fsm

/-- The fields that decide what the next output applies are unchanged, the commit index has not gone down, and
consecutive indexes are kept. -/
structure ApplyFrame (s s' : Fsm) : Prop where
  observed : s'.observed = s.observed
  snapshot : s'.log.snapshot = s.log.snapshot
  snp : s'.output.snp = s.output.snp
  committed : s'.output.committed = s.output.committed
  commitIdx_le : s.commitIdx ≤ s'.commitIdx
  consecutive : s.log.Consecutive → s'.log.Consecutive

namespace ApplyFrame

/-- A state that differs in nothing the frame looks at. -/
theorem of_eq {s s' : Fsm} (ho : s'.observed = s.observed) (hl : s'.log = s.log) (hc : s'.commitIdx = s.commitIdx)
    (hsnp : s'.output.snp = s.output.snp) (hcom : s'.output.committed = s.output.committed) : ApplyFrame s s' :=
  ⟨ho, hl ▸ rfl, hsnp, hcom, hc ▸ le_rfl, hl ▸ id⟩

/-- The same, with the fields compared at once. -/
theorem of_view {s s' : Fsm}
    (h : (s'.observed, s'.log, s'.commitIdx, s'.output.snp, s'.output.committed) =
      (s.observed, s.log, s.commitIdx, s.output.snp, s.output.committed)) : ApplyFrame s s' := by
  simp only [Prod.mk.injEq] at h
  exact of_eq h.1 h.2.1 h.2.2.1 h.2.2.2.1 h.2.2.2.2

instance : Std.Refl ApplyFrame := ⟨fun _ => of_eq rfl rfl rfl rfl rfl⟩

instance : IsTrans Fsm ApplyFrame :=
  ⟨fun _ _ _ h₁ h₂ => ⟨h₂.observed.trans h₁.observed, h₂.snapshot.trans h₁.snapshot, h₂.snp.trans h₁.snp,
    h₂.committed.trans h₁.committed, h₁.commitIdx_le.trans h₂.commitIdx_le, h₂.consecutive ∘ h₁.consecutive⟩⟩

theorem ite {s a b : Fsm} {c : Prop} [Decidable c] (ha : ApplyFrame s a) (hb : ApplyFrame s b) :
    ApplyFrame s (if c then a else b) := by
  split
  · exact ha
  · exact hb

end ApplyFrame

theorem sendTo_keeps (dst : Nat) (m : RpcMessage) : Keeps ApplyFrame (sendTo dst m) :=
  keeps_modify fun _ => ApplyFrame.of_eq rfl rfl rfl rfl rfl

theorem leaderState_readOnly : Keeps Eq leaderState := by
  apply keeps_get_bind
  intro s
  split
  · exact keeps_pure _ s
  · exact keeps_throw _ s

theorem leaderState_keeps : Keeps ApplyFrame leaderState := leaderState_readOnly.of_eq

theorem setLeaderState_keeps (ls : LeaderState) : Keeps ApplyFrame (setLeaderState ls) :=
  keeps_modify fun _ => ApplyFrame.of_eq rfl rfl rfl rfl rfl

theorem checkIsLeader_readOnly : Keeps Eq checkIsLeader := by
  apply keeps_get_bind
  intro s
  split
  · exact keeps_pure _ s
  · exact keeps_throw _ s

theorem checkIsLeader_keeps : Keeps ApplyFrame checkIsLeader := checkIsLeader_readOnly.of_eq

theorem updateCurrentTerm_keeps (t : Nat) : Keeps ApplyFrame (updateCurrentTerm t) := by
  apply keeps_get_bind
  intro s
  split
  · exact keepsFrom_set (ApplyFrame.of_eq rfl rfl rfl rfl rfl)
  · exact keeps_throw _ s

theorem resetElectionTimeout_keeps (rnd : Nat) : Keeps ApplyFrame (resetElectionTimeout rnd) :=
  keeps_modify fun _ => ApplyFrame.of_eq rfl rfl rfl rfl rfl

theorem advanceCommitIdx_keeps (leaderCommitIdx : Nat) : Keeps ApplyFrame (advanceCommitIdx leaderCommitIdx) := by
  apply keeps_modify
  intro s
  dsimp only
  split
  · refine ⟨rfl, rfl, rfl, rfl, ?_, id⟩
    show s.commitIdx ≤ min leaderCommitIdx s.log.lastIdx
    omega
  · exact refl_of ApplyFrame s

theorem becomeFollower_keeps (leader : Nat) : Keeps ApplyFrame (becomeFollower leader) := by
  apply keeps_get_bind
  intro s
  dsimp only
  split
  · exact keeps_throw_bind _ _ s
  · exact keepsFrom_set (ApplyFrame.of_view (by split_ifs <;> rfl))

theorem replicateTo_keeps (id : Nat) (allowEmpty : Bool) : Keeps ApplyFrame (replicateTo id allowEmpty) := by
  unfold replicateTo
  refine Keeps.bind leaderState_keeps fun ls => ?_
  split
  · refine keeps_get_bind fun s => (Keeps.bind (keeps_lift _) fun x => ?_) s
    obtain ⟨p, msgs⟩ := x
    exact Keeps.bind (setLeaderState_keeps _) fun _ => keeps_modify fun _ => ApplyFrame.of_view rfl
  · exact keeps_throw _

theorem replicateLoop_keeps : ∀ ps, Keeps ApplyFrame (replicateLoop ps)
  | [] => keeps_pure _
  | p :: ps => by
    unfold replicateLoop
    refine keeps_get_bind fun s => ?_
    dsimp only
    split
    · exact (Keeps.bind (replicateTo_keeps _ _) fun _ => replicateLoop_keeps ps) s
    · exact replicateLoop_keeps ps s

theorem replicate_keeps : Keeps ApplyFrame replicate :=
  Keeps.bind leaderState_keeps fun _ => replicateLoop_keeps _

/-- Writing back the state read with one more entry at the next index, then going on in the frame. -/
theorem keepsFrom_emplaceBack_bind {β : Type} {s : Fsm} {e : LogEntry} {k : PUnit → FsmM β}
    (he : e.idx = s.log.nextIdx) (hk : Keeps ApplyFrame (k ⟨⟩)) :
    KeepsFrom ApplyFrame s (set { s with log := s.log.emplaceBack e } >>= k) :=
  keepsFrom_set_bind ⟨rfl, Log.emplaceBack_snapshot _ _, rfl, rfl, le_rfl, fun h => h.emplaceBack he⟩ (hk _)

theorem addEntry_keeps (data : EntryData) : Keeps ApplyFrame (addEntry data) := by
  unfold addEntry
  dsimp only
  refine Keeps.bind checkIsLeader_keeps fun _ => Keeps.bind leaderState_keeps fun ls => ?_
  split
  · exact keeps_throw_bind _ _
  · refine keeps_get_bind fun s => ?_
    -- Whatever the entry holds, it goes at the next index; a configuration also updates the tracker.
    have hconf : ∀ isConf : Bool, Keeps ApplyFrame (if isConf = true then do
          let s ← get
          let ls ← leaderState
          setLeaderState { ls with tracker := ls.tracker.setConfiguration s.log.getConfiguration s.log.lastIdx }
        else pure ()) := by
      intro isConf
      split
      · exact keeps_get_bind fun _ => (Keeps.bind leaderState_keeps fun _ => setLeaderState_keeps _) _
      · exact keeps_pure _
    split
    · refine KeepsFrom.bind_of_eq (keeps_lift _) fun _ => ?_
      split
      · exact keeps_throw_bind _ _ s
      · exact KeepsFrom.bind_of_eq (keeps_lift _) fun _ => KeepsFrom.bind_of_eq (keeps_pure _) fun _ =>
          keepsFrom_emplaceBack_bind rfl (hconf _)
    · exact KeepsFrom.bind_of_eq (keeps_pure _) fun _ => keepsFrom_emplaceBack_bind rfl (hconf _)

theorem sendTimeoutNow_keeps (id : Nat) : Keeps ApplyFrame (sendTimeoutNow id) := by
  unfold sendTimeoutNow
  refine keeps_get_bind fun s => (Keeps.bind (sendTo_keeps _ _) fun _ => Keeps.bind leaderState_keeps fun ls =>
    Keeps.bind (setLeaderState_keeps _) fun _ => ?_) s
  split
  · split
    · exact becomeFollower_keeps 0
    · exact keeps_pure _
  · exact becomeFollower_keeps 0

theorem transferLeadership_keeps (timeout : Nat) : Keeps ApplyFrame (transferLeadership timeout) := by
  unfold transferLeadership
  dsimp only
  refine Keeps.bind checkIsLeader_keeps fun _ => Keeps.bind leaderState_keeps fun ls => ?_
  refine keeps_get_bind fun s => (?_ : Keeps ApplyFrame _) s
  split
  · exact keeps_throw_bind _ _
  · refine Keeps.bind (setLeaderState_keeps _) fun _ => ?_
    split
    · exact sendTimeoutNow_keeps _
    · exact keeps_pure _

theorem handleReadQuorumReply_keeps (src : Nat) (reply : ReadQuorumReply) :
    Keeps ApplyFrame (handleReadQuorumReply src reply) := by
  unfold handleReadQuorumReply
  dsimp only
  refine Keeps.bind leaderState_keeps fun ls => ?_
  split
  · refine Keeps.bind (setLeaderState_keeps _) fun _ => ?_
    split
    · exact keeps_pure _
    · split
      · exact keeps_pure _
      · exact Keeps.bind (setLeaderState_keeps _) fun _ => keeps_modify fun _ => ApplyFrame.of_view rfl
  · exact keeps_pure _

theorem broadcastReadQuorumLoop_keeps (id : Nat) : ∀ ps, Keeps ApplyFrame (broadcastReadQuorumLoop id ps)
  | [] => keeps_pure _
  | p :: ps => by
    unfold broadcastReadQuorumLoop
    dsimp only
    split
    · refine keeps_get_bind fun s => (?_ : Keeps ApplyFrame _) s
      split
      · exact Keeps.bind (handleReadQuorumReply_keeps _ _) fun _ => broadcastReadQuorumLoop_keeps id ps
      · exact Keeps.bind (sendTo_keeps _ _) fun _ => broadcastReadQuorumLoop_keeps id ps
    · exact broadcastReadQuorumLoop_keeps id ps

theorem broadcastReadQuorum_keeps (id : Nat) : Keeps ApplyFrame (broadcastReadQuorum id) :=
  Keeps.bind leaderState_keeps fun _ => broadcastReadQuorumLoop_keeps id _

/-- The re-broadcast of a pending read barrier that ends `maybe_commit` after a configuration change. -/
private theorem rebroadcast_keeps : Keeps ApplyFrame (do
    match (← get).state with
    | .leader ls => if ls.lastReadId ≠ ls.maxReadIdWithQuorum then broadcastReadQuorum ls.lastReadId
    | _ => pure () : FsmM Unit) := by
  refine keeps_get_bind fun s => (?_ : Keeps ApplyFrame _) s
  split
  · split
    · exact broadcastReadQuorum_keeps _
    · exact keeps_pure _
  · exact keeps_pure _

theorem maybeCommitAux_keeps : ∀ fuel, Keeps ApplyFrame (maybeCommitAux fuel)
  | 0 => keeps_pure _
  | fuel + 1 => by
    rw [maybeCommitAux]
    dsimp only
    refine Keeps.bind leaderState_keeps fun ls => keeps_get_bind fun s => ?_
    split
    · exact keeps_pure _ s
    · split
      · split
        · exact keeps_pure _ s
        · -- The commit index goes up to the new one.
          refine keepsFrom_set_bind ⟨rfl, rfl, rfl, rfl, by dsimp only; omega, id⟩ ((?_ : Keeps ApplyFrame _) _)
          split
          · split
            · -- The joint configuration is committed: `C_new` goes at the next index.
              refine keeps_get_bind fun s => keepsFrom_emplaceBack_bind rfl ?_
              exact keeps_get_bind fun _ => (Keeps.bind leaderState_keeps fun _ => Keeps.bind (setLeaderState_keeps _)
                fun _ => Keeps.bind (maybeCommitAux_keeps fuel) fun _ => rebroadcast_keeps) _
            · refine Keeps.bind leaderState_keeps fun ls => ?_
              split
              · split
                · exact Keeps.bind (transferLeadership_keeps 0) fun _ => rebroadcast_keeps
                · exact rebroadcast_keeps
              · exact Keeps.bind (transferLeadership_keeps 0) fun _ => rebroadcast_keeps
          · exact keeps_pure _
      · exact keeps_throw _ s

theorem maybeCommit_keeps : Keeps ApplyFrame maybeCommit := maybeCommitAux_keeps 2

theorem advanceStableIdx_keeps (idx : Nat) : Keeps ApplyFrame (advanceStableIdx idx) := by
  unfold advanceStableIdx
  refine keeps_get_bind fun s => ?_
  refine KeepsFrom.bind (keeps_lift _ s) fun l s' hl => ?_
  obtain ⟨hst, rfl⟩ := run_lift_eq_ok.1 hl
  -- Only the stable index of the log moves.
  obtain ⟨rfl, -⟩ := Log.stableTo_eq_ok hst
  refine keepsFrom_set_bind ⟨rfl, rfl, rfl, rfl, le_rfl, fun h => h.congr rfl rfl⟩ ?_
  refine keeps_get_bind (fun _ => (?_ : Keeps ApplyFrame _) _) _
  split
  · refine Keeps.bind leaderState_keeps fun ls => ?_
    split
    · exact Keeps.bind (setLeaderState_keeps _) fun _ => maybeCommit_keeps
    · exact keeps_pure _
  · exact keeps_pure _

theorem startReadBarrier_keeps (requester : Nat) : Keeps ApplyFrame (startReadBarrier requester) := by
  unfold startReadBarrier
  dsimp only
  refine Keeps.bind checkIsLeader_keeps fun _ => Keeps.bind leaderState_keeps fun ls => ?_
  refine keeps_get_bind fun s => (?_ : Keeps ApplyFrame _) s
  -- `next_read_id` and the answer
  have hnext := fun (c : Nat) => Keeps.bind (R := ApplyFrame) leaderState_keeps fun ls =>
    Keeps.bind (setLeaderState_keeps { ls with lastReadId := ls.lastReadId + 1, lastReadIdChanged := true })
      fun _ => keeps_pure (some (ls.lastReadId + 1, c))
  split
  · exact keeps_throw_bind _ _
  · split
    · split
      · exact keeps_pure _
      · split
        · split
          · exact Keeps.bind (replicateTo_keeps _ _) fun _ => hnext _
          · exact hnext _
        · exact hnext _
    · exact keeps_throw _

theorem appendEntriesReply_keeps (src : Nat) (reply : AppendReply) :
    Keeps ApplyFrame (appendEntriesReply src reply) := by
  unfold appendEntriesReply
  dsimp only
  refine Keeps.bind leaderState_keeps fun ls => ?_
  -- The closing `replicate_to`, if the follower is still in the configuration.
  have hlast : Keeps ApplyFrame
      (do if ((← leaderState).tracker.find? src).isSome then replicateTo src false : FsmM Unit) :=
    Keeps.bind leaderState_keeps fun _ => Keeps.ite (replicateTo_keeps _ _) (keeps_pure _)
  -- `maybe_commit`, after which only a leader goes on.
  have hcommit : Keeps ApplyFrame
      (do maybeCommit; if !(← get).isLeader then return else (do
        if ((← leaderState).tracker.find? src).isSome then replicateTo src false : FsmM Unit)) :=
    Keeps.bind maybeCommit_keeps fun _ => Keeps.get_bind fun _ => Keeps.ite (keeps_pure _) hlast
  split
  · refine Keeps.ite (Keeps.bind (setLeaderState_keeps _) fun _ => keeps_pure _) ?_
    split
    · refine Keeps.bind (setLeaderState_keeps _) fun _ => Keeps.get_bind fun _ => ?_
      refine Keeps.ite ?_ hcommit
      exact Keeps.bind (sendTimeoutNow_keeps _) fun _ => Keeps.get_bind fun _ => Keeps.ite (keeps_pure _) hcommit
    · refine Keeps.bind (setLeaderState_keeps _) fun _ => ?_
      refine Keeps.ite (Keeps.bind (replicateTo_keeps _ _) fun _ => keeps_pure _) ?_
      refine Keeps.ite (keeps_pure _) ?_
      exact Keeps.ite (keeps_throw_bind _ _) (Keeps.bind (setLeaderState_keeps _) fun _ => hlast)
  · exact keeps_pure _

theorem installSnapshotReply_keeps (src : Nat) (reply : SnapshotReply) :
    Keeps ApplyFrame (installSnapshotReply src reply) := by
  unfold installSnapshotReply
  refine Keeps.bind leaderState_keeps fun ls => ?_
  split
  · split
    · exact keeps_pure _
    · refine Keeps.bind (setLeaderState_keeps _) fun _ => ?_
      split
      · exact replicateTo_keeps _ _
      · exact keeps_pure _
  · exact keeps_pure _

theorem becomeLeader_keeps : Keeps ApplyFrame becomeLeader := by
  unfold becomeLeader
  refine keeps_get_bind fun s => ?_
  split
  · exact keeps_throw_bind _ _ s
  · refine keepsFrom_set_bind (ApplyFrame.of_view rfl) ?_
    exact (Keeps.bind (addEntry_keeps _) fun _ => Keeps.get_bind fun _ =>
      Keeps.bind leaderState_keeps fun _ => setLeaderState_keeps _) _

theorem tickLeaderLoop_keeps : ∀ ps, Keeps ApplyFrame (tickLeaderLoop ps)
  | [] => keeps_pure _
  | p :: ps => by
    unfold tickLeaderLoop
    dsimp only
    refine Keeps.get_bind fun s => Keeps.ite ?_ (tickLeaderLoop_keeps ps)
    refine Keeps.bind leaderState_keeps fun _ => Keeps.bind (setLeaderState_keeps _) fun _ => ?_
    exact Keeps.ite (Keeps.bind (replicateTo_keeps _ _) fun _ => tickLeaderLoop_keeps ps) (tickLeaderLoop_keeps ps)

theorem tickLeader_keeps (isAlive : Nat → Bool) : Keeps ApplyFrame (tickLeader isAlive) := by
  unfold tickLeader
  dsimp only
  refine Keeps.get_bind fun s => ?_
  split
  · exact Keeps.bind (becomeFollower_keeps 0) fun _ => keeps_pure _
  · refine Keeps.bind leaderState_keeps fun ls => Keeps.bind (tickLeaderLoop_keeps _) fun _ =>
      Keeps.bind leaderState_keeps fun ls' => ?_
    -- The stepdown check follows on every path; the liveness check moves only the election timer.
    refine Keeps.ite_seq (broadcastReadQuorum_keeps _)
      (Keeps.ite_seq (keeps_modify fun _ => ApplyFrame.of_view rfl) ?_)
    -- The stepdown timer: abort the transfer or repeat `timeout_now`.
    refine Keeps.bind leaderState_keeps fun ls => Keeps.get_bind fun s => ?_
    split
    · split
      · refine Keeps.ite (Keeps.ite ?_ ?_) (keeps_pure _)
        · exact Keeps.bind (setLeaderState_keeps _) fun _ => keeps_modify fun _ => ApplyFrame.of_view rfl
        · split
          · exact sendTo_keeps _ _
          · exact keeps_pure _
      · exact keeps_pure _
    · exact keeps_pure _

theorem campaignLoop_keeps (term : Nat) (isPrevote isLeadershipTransfer : Bool) :
    ∀ ids v, Keeps ApplyFrame (campaignLoop term isPrevote isLeadershipTransfer ids v)
  | [], _ => keeps_pure _
  | id :: ids, v => by
    unfold campaignLoop
    dsimp only
    refine keeps_get_bind fun s => ?_
    split
    · -- The candidate's own vote, recorded unless a pre-vote.
      split
      · exact keepsFrom_set_bind (ApplyFrame.of_view rfl) (campaignLoop_keeps term isPrevote isLeadershipTransfer ids _ _)
      · exact campaignLoop_keeps term isPrevote isLeadershipTransfer ids _ s
    · exact (Keeps.bind (sendTo_keeps _ _) fun _ => campaignLoop_keeps term isPrevote isLeadershipTransfer ids v) s

/-- The election proper of `become_candidate`: a new term unless a pre-vote, the requests, and the count. -/
private theorem election_keeps (isPrevote isLeadershipTransfer : Bool) (term : Nat) (votes : Votes) :
    Keeps ApplyFrame (do
      if !isPrevote then updateCurrentTerm term
      let votes ← campaignLoop term isPrevote isLeadershipTransfer votes.voters votes
      modify fun s => { s with state := .candidate votes isPrevote }
      return votes.tallyVotes == .won : FsmM Bool) := by
  have hcount := Keeps.bind (R := ApplyFrame) (campaignLoop_keeps term isPrevote isLeadershipTransfer votes.voters votes)
    fun votes => Keeps.bind (keeps_modify (f := fun s => { s with state := .candidate votes isPrevote })
      fun _ => ApplyFrame.of_view rfl) fun _ => keeps_pure (votes.tallyVotes == .won)
  exact Keeps.ite (Keeps.bind (updateCurrentTerm_keeps _) fun _ => hcount) hcount

theorem campaign_keeps (isPrevote isLeadershipTransfer : Bool) (rnd : Nat) :
    Keeps ApplyFrame (campaign isPrevote isLeadershipTransfer rnd) := by
  unfold campaign
  dsimp only
  refine keeps_get_bind fun s => keepsFrom_set_bind (ApplyFrame.of_view (by split_ifs <;> rfl)) ?_
  refine (Keeps.bind (resetElectionTimeout_keeps rnd) fun _ => Keeps.bind ?_ fun _ => Keeps.get_bind fun s => ?_) _
  · exact keeps_modify fun _ => ApplyFrame.of_view rfl
  -- A server that is no voter gives up, unless it voted in the previous configuration.
  refine Keeps.ite (Keeps.ite (Keeps.bind (becomeFollower_keeps 0) fun _ => keeps_pure _) ?_)
    (election_keeps _ _ _ _)
  split
  · exact Keeps.ite (Keeps.bind (becomeFollower_keeps 0) fun _ => keeps_pure _) (election_keeps _ _ _ _)
  · exact keeps_throw_bind _ _

theorem becomeCandidate_keeps (isPrevote isLeadershipTransfer : Bool) (rnd : Nat) :
    Keeps ApplyFrame (becomeCandidate isPrevote isLeadershipTransfer rnd) := by
  unfold becomeCandidate
  refine Keeps.bind (campaign_keeps _ _ _) fun won => Keeps.ite ?_ (keeps_pure _)
  refine Keeps.ite (Keeps.bind (campaign_keeps _ _ _) fun _ => Keeps.ite becomeLeader_keeps (keeps_pure _)) ?_
  exact becomeLeader_keeps

theorem requestVote_keeps (src : Nat) (req : VoteRequest) : Keeps ApplyFrame (requestVote src req) := by
  unfold requestVote
  dsimp only
  refine keeps_get_bind fun s => ?_
  split
  · exact keeps_throw_bind _ _ s
  · split
    · split
      · exact keepsFrom_set_bind (ApplyFrame.of_view rfl) (sendTo_keeps _ _ _)
      · exact sendTo_keeps _ _ s
    · exact sendTo_keeps _ _ s

theorem requestVoteReply_keeps (src : Nat) (reply : VoteReply) (rnd : Nat) :
    Keeps ApplyFrame (requestVoteReply src reply rnd) := by
  unfold requestVoteReply
  refine keeps_get_bind fun s => ?_
  split
  · dsimp only
    split
    · exact keeps_pure _ s
    · refine keepsFrom_set_bind (ApplyFrame.of_view rfl) ?_
      split
      · exact keeps_pure _ _
      · exact Keeps.ite (becomeCandidate_keeps _ _ _) becomeLeader_keeps _
      · exact becomeFollower_keeps 0 _
  · exact keeps_throw _ s

theorem maybeResendVoteRequest_keeps (dst : Nat) : Keeps ApplyFrame (maybeResendVoteRequest dst) := by
  unfold maybeResendVoteRequest
  refine Keeps.get_bind fun s => ?_
  split
  · exact Keeps.ite (sendTo_keeps _ _) (keeps_pure _)
  · exact keeps_throw _

theorem appendEntries_keeps (src : Nat) (req : AppendRequest) : Keeps ApplyFrame (appendEntries src req) := by
  unfold appendEntries
  dsimp only
  refine keeps_get_bind fun s => ?_
  -- The commit index moves only up, and the reply is sent.
  have hreply := fun (lastNewIdx : Nat) => Keeps.bind (R := ApplyFrame)
    (advanceCommitIdx_keeps (min req.leaderCommitIdx lastNewIdx)) fun _ => Keeps.get_bind fun s => sendTo_keeps src
      (.appendReply { currentTerm := s.currentTerm, commitIdx := s.commitIdx, result := .accepted lastNewIdx })
  split
  · exact keeps_throw_bind _ _ s
  · split
    · exact (Keeps.bind (sendTo_keeps _ _) fun _ => keeps_pure _) s
    · split
      · exact (Keeps.bind (keeps_pure _) hreply) s
      · refine KeepsFrom.bind (keeps_lift _ s) fun x s' hx => ?_
        obtain ⟨hm, rfl⟩ := run_lift_eq_ok.1 hx
        obtain ⟨l, i⟩ := x
        -- The appended log keeps its snapshot and its consecutive indexes.
        have hsnap := (Log.maybeAppend_snapshot hm).1
        exact keepsFrom_set_bind ⟨rfl, hsnap, rfl, rfl, le_rfl, fun h => h.maybeAppend hm⟩
          ((Keeps.bind (keeps_pure _) hreply) _)

theorem sendPingMessages_keeps (isAlive : Nat → Bool) : Keeps ApplyFrame (sendPingMessages isAlive) := by
  unfold sendPingMessages
  dsimp only
  refine keeps_get_bind fun s => ?_
  split
  · exact keepsFrom_set (ApplyFrame.of_view rfl)
  · exact keeps_pure _ s

theorem tick_keeps (isAlive : Nat → Bool) (rnd : Nat) : Keeps ApplyFrame (tick isAlive rnd) := by
  unfold tick
  dsimp only
  refine Keeps.bind (keeps_modify fun _ => ApplyFrame.of_view rfl) fun _ => Keeps.get_bind fun s => ?_
  -- A follower without a leader that was asked to find one pings the voters.
  have hping := Keeps.get_bind (R := ApplyFrame) fun (s : Fsm) =>
    Keeps.ite (c := (s.isFollower && s.currentLeader == 0 && s.pingLeader) = true)
      (sendPingMessages_keeps isAlive) (keeps_pure ())
  refine Keeps.ite (Keeps.bind (tickLeader_keeps _) fun _ => hping) (Keeps.ite ?_ ?_)
  · refine Keeps.bind ?_ fun _ => hping
    exact keeps_modify fun _ => ApplyFrame.of_view rfl
  · exact Keeps.ite (Keeps.bind (becomeCandidate_keeps _ _ _) fun _ => hping) hping

theorem flushLeader_keeps (diff : Nat) : Keeps ApplyFrame (flushLeader diff) := by
  unfold flushLeader
  dsimp only
  refine Keeps.get_bind fun _ => Keeps.ite (Keeps.bind leaderState_keeps fun ls => ?_) (keeps_pure _)
  have hreplicate : Keeps ApplyFrame (if diff ≠ 0 then replicate else pure ()) := Keeps.ite replicate_keeps (keeps_pure _)
  exact Keeps.ite (Keeps.bind (broadcastReadQuorum_keeps _) fun _ => Keeps.bind leaderState_keeps fun _ =>
    Keeps.bind (setLeaderState_keeps _) fun _ => hreplicate) hreplicate

theorem pingLeaderOp_keeps (isAlive : Nat → Bool) : Keeps ApplyFrame (pingLeaderOp isAlive) := by
  unfold pingLeaderOp
  refine Keeps.get_bind fun s => Keeps.ite (keeps_throw_bind _ _) ?_
  refine Keeps.bind ?_ fun _ => sendPingMessages_keeps isAlive
  exact keeps_modify fun _ => ApplyFrame.of_view rfl

theorem stop_keeps : Keeps ApplyFrame stop :=
  Keeps.get_bind fun _ => Keeps.ite (becomeFollower_keeps 0) (keeps_pure _)
end Fsm

end Scylla.Raft
