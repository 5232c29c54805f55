import Scylla.Raft.Fsm.Defs

/-!
# The leader's side of the fsm

`raft/fsm.cc`: replication to a follower (`replicate_to`), new entries (`add_entry`), the commit rule
(`maybe_commit`), leadership transfer, read barriers, the handlers of the replies a leader receives, and the
leader's tick.

`replicate_to` loops while the follower can take more; each pass that does not return sends a probe (after which
the follower cannot take more) or one more pipelined request, so the loop runs at most
`max_in_flight + 2` times, the fuel given to it here.  `maybe_commit` calls itself once after leaving a joint
configuration, and the call it makes cannot leave a joint configuration again, so two levels of fuel are exact.
-/

namespace Scylla.Raft

namespace Fsm

open FollowerProgress StateExcept

/-- The inner loop of `replicate_to`: the entries of one request, from `nextIdx` on while the request is under
the size threshold; a probe carries one entry.  Returns the entries and the index after the last one. -/
def collectEntries (l : Log) (threshold : Nat) (probe : Bool) :
    Nat → Nat → Nat → Except RaftError (List LogEntry × Nat)
  | 0, nextIdx, _ => .ok ([], nextIdx)
  | fuel + 1, nextIdx, size =>
    if nextIdx ≤ l.lastIdx ∧ size < threshold then
      match l.getEntry nextIdx with
      | none => .error .assertion
      | some e =>
        if probe then .ok ([e], nextIdx + 1)
        else do
          let (es, n) ← collectEntries l threshold probe fuel (nextIdx + 1) (size + e.getSize)
          return (e :: es, n)
    else .ok ([], nextIdx)

/-- The loop of `replicate_to` for the progress `p` of a follower: the progress after it and the messages sent.
A follower that lags behind the snapshot is switched to snapshot transfer. -/
def replicateToLoop (s : Fsm) :
    Nat → FollowerProgress → Bool → List (Nat × RpcMessage) →
      Except RaftError (FollowerProgress × List (Nat × RpcMessage))
  | 0, p, _, out => .ok (p, out)
  | fuel + 1, p, allowEmpty, out =>
    if !p.canSendTo then .ok (p, out)
    -- Past the end of the log only one empty message is allowed.
    else if p.nextIdx > s.log.lastIdx ∧ !allowEmpty then .ok (p, out)
    else
      let prevIdx := p.nextIdx - 1
      match s.log.termFor prevIdx with
      | none =>
        -- The entry before `next_idx` is not in the log: the follower needs the snapshot first.
        .ok (p.becomeSnapshot s.log.snapshot.idx,
          out ++ [(p.id, .installSnapshot { currentTerm := s.currentTerm, snp := s.log.snapshot })])
      | some prevTerm => do
        let (entries, p) ←
          if p.nextIdx > s.log.lastIdx then pure ([], p)
          else do
            let (es, n) ← collectEntries s.log s.config.appendRequestThreshold (p.state == .probe)
              s.log.entries.length p.nextIdx 0
            -- In pipeline mode the next index moves on optimistically.
            pure (es, if p.state == .pipeline then { p with inFlight := p.inFlight + 1, nextIdx := n } else p)
        let req : AppendRequest := { currentTerm := s.currentTerm, prevLogIdx := prevIdx, prevLogTerm := prevTerm,
                                     leaderCommitIdx := s.commitIdx, entries }
        let p := if p.state == .probe then { p with probeSent := true } else p
        replicateToLoop s fuel p false (out ++ [(p.id, .appendRequest req)])

/-- `fsm::replicate_to` for the follower `id` of the tracker. -/
def replicateTo (id : Nat) (allowEmpty : Bool) : FsmM Unit := do
  let ls ← leaderState
  let some p := ls.tracker.find? id | throw .assertion
  let s ← get
  let (p, msgs) ← StateT.lift (replicateToLoop s (maxInFlight + 2) p allowEmpty [])
  setLeaderState { ls with tracker := ls.tracker.update p }
  modify fun s => { s with messages := s.messages ++ msgs }

/-- `fsm::replicate`: replicate to every follower. -/
def replicateLoop : List FollowerProgress → FsmM Unit
  | [] => pure ()
  | p :: ps => do
    if p.id ≠ (← get).myId then replicateTo p.id false
    replicateLoop ps

def replicate : FsmM Unit := do
  replicateLoop (← leaderState).tracker.progress

/-- `fsm::add_entry`: append a command, a dummy, or the joint configuration `C_old,new` for a new member set. -/
def addEntry (data : EntryData) : FsmM Unit := do
  checkIsLeader
  -- A leader that is stepping down adds no new entries (3.10).
  if (← leaderState).stepdown.isSome then throw .notALeader
  let s ← get
  let data ← match data with
    | .configuration cmd => do
      StateT.lift (Configuration.check cmd.current)
      -- Leaders start no new change until the previous one has committed and left the joint configuration.
      if s.log.lastConfIdx > s.commitIdx ∨ s.log.getConfiguration.isJoint then throw .confChangeInProgress
      pure (EntryData.configuration (← StateT.lift (s.log.getConfiguration.enterJoint cmd.current)))
    | d => pure d
  set { s with log := s.log.emplaceBack { term := s.currentTerm, idx := s.log.nextIdx, data } }
  if data matches .configuration _ then
    -- The new configuration takes effect as soon as it is in the log (4.1).
    let s ← get
    let ls ← leaderState
    setLeaderState { ls with tracker := ls.tracker.setConfiguration s.log.getConfiguration s.log.lastIdx }

/-- `fsm::send_timeout_now`; a leader that is no voter steps down right away. -/
def sendTimeoutNow (id : Nat) : FsmM Unit := do
  let s ← get
  sendTo id (.timeoutNow { currentTerm := s.currentTerm })
  let ls ← leaderState
  setLeaderState { ls with timeoutNowSent := some id }
  match ls.tracker.find? s.myId with
  | some me => if !me.canVote then becomeFollower 0
  | none => becomeFollower 0

/-- `fsm::transfer_leadership`: stop taking requests and ask a fully replicated voter to campaign. -/
def transferLeadership (timeout : Nat) : FsmM Unit := do
  checkIsLeader
  let ls ← leaderState
  let s ← get
  let leader := ls.tracker.find? s.myId
  if Configuration.voterCount s.log.getConfiguration.current = 1 ∧ (leader.map (·.canVote)).getD false then
    throw .noOtherVotingMember
  setLeaderState { ls with stepdown := some (s.now + timeout) }
  match ls.tracker.progress.find? (fun p => p.id ≠ s.myId ∧ p.canVote ∧ p.matchIdx = s.log.lastIdx) with
  | some p => sendTimeoutNow p.id
  | none => pure ()

/-- `fsm::handle_read_quorum_reply`: record the follower's acknowledgement, and raise
`max_read_id_with_quorum` when a quorum of each voter set acknowledged a newer read. -/
def handleReadQuorumReply (src : Nat) (reply : ReadQuorumReply) : FsmM Unit := do
  let ls ← leaderState
  let some p := ls.tracker.find? src | return
  let p := { p with commitIdx := max p.commitIdx reply.commitIdx, maxAckedRead := max p.maxAckedRead reply.id }
  let ls := { ls with tracker := ls.tracker.update p }
  setLeaderState ls
  -- A quorum for a more recent id is already known.
  if reply.id ≤ ls.maxReadIdWithQuorum then return
  let newCommittedRead := ls.tracker.committed (·.maxAckedRead) ls.maxReadIdWithQuorum
  if newCommittedRead ≤ ls.maxReadIdWithQuorum then return
  setLeaderState { ls with maxReadIdWithQuorum := newCommittedRead }
  modify fun s => { s with output.maxReadIdWithQuorum := some newCommittedRead }

/-- The loop of `fsm::broadcast_read_quorum` over the tracker. -/
def broadcastReadQuorumLoop (id : Nat) : List FollowerProgress → FsmM Unit
  | [] => pure ()
  | p :: ps => do
    if p.canVote then
      let s ← get
      if p.id = s.myId then
        handleReadQuorumReply s.myId { currentTerm := s.currentTerm, commitIdx := s.commitIdx, id }
      else
        sendTo p.id (.readQuorum { currentTerm := s.currentTerm, leaderCommitIdx := min p.matchIdx s.commitIdx, id })
    broadcastReadQuorumLoop id ps

/-- `fsm::broadcast_read_quorum`: ask every voter to acknowledge read `id`; the commit index sent to a
follower is capped by what it is known to hold. -/
def broadcastReadQuorum (id : Nat) : FsmM Unit := do
  broadcastReadQuorumLoop id (← leaderState).tracker.progress

/-- `fsm::maybe_commit` with its one level of recursion as fuel. -/
def maybeCommitAux : Nat → FsmM Unit
  | 0 => pure ()
  | fuel + 1 => do
    let ls ← leaderState
    let s ← get
    let newCommitIdx := ls.tracker.committed (·.matchIdx) s.commitIdx
    if newCommitIdx ≤ s.commitIdx then return
    let committedConfChange := decide (s.commitIdx < s.log.lastConfIdx ∧ newCommitIdx ≥ s.log.lastConfIdx)
    let some e := s.log.getEntry newCommitIdx | throw .assertion
    -- Only entries of the leader's own term are committed by counting replicas (3.6.2).
    if e.term ≠ s.currentTerm then return
    set { s with commitIdx := newCommitIdx }
    if committedConfChange then
      if s.log.getConfiguration.isJoint then
        -- The joint configuration is committed: move on to `C_new` (4.3).
        let s ← get
        let cfg := s.log.getConfiguration.leaveJoint
        set { s with log := s.log.emplaceBack { term := s.currentTerm, idx := s.log.nextIdx, data := .configuration cfg } }
        let s ← get
        let ls ← leaderState
        setLeaderState { ls with tracker := ls.tracker.setConfiguration s.log.getConfiguration s.log.lastIdx }
        -- Leaving the joint configuration may commit more entries without new acknowledgements.
        maybeCommitAux fuel
      else
        -- A leader removed by the committed `C_new` steps down (4.2.2).
        let ls ← leaderState
        match ls.tracker.find? s.myId with
        | some lp => if !lp.canVote then transferLeadership 0
        | none => transferLeadership 0
      -- Reads waiting for a quorum of the old configuration are asked again under the new one.
      match (← get).state with
      | .leader ls => if ls.lastReadId ≠ ls.maxReadIdWithQuorum then broadcastReadQuorum ls.lastReadId
      | _ => pure ()

/-- `fsm::maybe_commit`. -/
def maybeCommit : FsmM Unit := maybeCommitAux 2

/-- `fsm::advance_stable_idx`: entries up to `idx` are persisted; a leader counts them as replicated on itself. -/
def advanceStableIdx (idx : Nat) : FsmM Unit := do
  let s ← get
  set { s with log := ← StateT.lift (s.log.stableTo idx) }
  if (← get).isLeader then
    let ls ← leaderState
    match ls.tracker.find? s.myId with
    | some lp =>
      setLeaderState { ls with tracker := ls.tracker.update (lp.accepted idx) }
      maybeCommit
    | none => pure ()

/-- `fsm::start_read_barrier`: a read id and the commit index a read must wait for, or nothing while no entry
of the leader's term is committed yet. -/
def startReadBarrier (requester : Nat) : FsmM (Option (Nat × Nat)) := do
  checkIsLeader
  let ls ← leaderState
  let s ← get
  let progress := ls.tracker.find? requester
  if requester ≠ s.myId ∧ progress.isNone then throw .outsideConfiguration
  let some termForCommitIdx := s.log.termFor s.commitIdx | throw .assertion
  if termForCommitIdx ≠ s.currentTerm then return none
  -- A non-voter gets no read_quorum message, so bring its commit index up now.
  match progress with
  | some p =>
    if requester ≠ s.myId ∧ p.commitIdx < s.commitIdx ∧ p.matchIdx = s.log.lastIdx ∧ !p.canVote then
      replicateTo p.id true
  | none => pure ()
  -- `next_read_id`
  let ls ← leaderState
  let id := ls.lastReadId + 1
  setLeaderState { ls with lastReadId := id, lastReadIdChanged := true }
  return some (id, s.commitIdx)

/-- `fsm::append_entries_reply`. -/
def appendEntriesReply (src : Nat) (reply : AppendReply) : FsmM Unit := do
  let ls ← leaderState
  -- A reply from a follower removed from the configuration.
  let some p := ls.tracker.find? src | return
  let p := if p.state == .pipeline ∧ p.inFlight > 0 then { p with inFlight := p.inFlight - 1 } else p
  if p.state == .snapshot then
    setLeaderState { ls with tracker := ls.tracker.update p }
    return
  let p := { p with commitIdx := max p.commitIdx reply.commitIdx }
  match reply.result with
  | .accepted lastNewIdx =>
    let p := (p.accepted lastNewIdx).becomePipeline
    setLeaderState { ls with tracker := ls.tracker.update p }
    -- A leader stepping down hands over to the first voter with the whole log.
    if ls.stepdown.isSome ∧ ls.timeoutNowSent.isNone ∧ p.canVote ∧ p.matchIdx = (← get).log.lastIdx then
      sendTimeoutNow p.id
      if !(← get).isLeader then return
    maybeCommit
    if !(← get).isLeader then return
  | .rejected nonMatchingIdx lastIdx =>
    setLeaderState { ls with tracker := ls.tracker.update p }
    -- A follower looking for a leader: answer with an empty append.
    if nonMatchingIdx = 0 ∧ lastIdx = 0 then
      replicateTo p.id true
      return
    if p.isStrayReject nonMatchingIdx lastIdx then return
    let p := { p with nextIdx := min nonMatchingIdx (lastIdx + 1) }.becomeProbe
    if p.nextIdx ≤ p.matchIdx then throw .assertion
    setLeaderState { ls with tracker := ls.tracker.update p }
  -- The configuration may have changed and removed this follower.
  if ((← leaderState).tracker.find? src).isSome then replicateTo src false

/-- `fsm::install_snapshot_reply`: a transfer, successful or not, puts the follower back into probing. -/
def installSnapshotReply (src : Nat) (reply : SnapshotReply) : FsmM Unit := do
  let ls ← leaderState
  let some p := ls.tracker.find? src | return
  if p.state ≠ .snapshot then return
  setLeaderState { ls with tracker := ls.tracker.update p.becomeProbe }
  if reply.success then replicateTo src false

/-- `fsm::become_leader`: commit a dummy entry of the new term, and replicate from the end of the log. -/
def becomeLeader : FsmM Unit := do
  let s ← get
  if s.isLeader then throw .assertion
  set { s with output.stateChanged := true, state := .leader { tracker := Tracker.empty },
               lastElectionTime := s.now, pingLeader := false }
  addEntry .dummy
  let s ← get
  let ls ← leaderState
  setLeaderState { ls with tracker := ls.tracker.setConfiguration s.log.getConfiguration s.log.lastIdx }

/-- `become_leader` adds the dummy entry and nothing else to the log, and leaves the commit index. -/
theorem becomeLeader_eq_ok {s s' : Fsm} {u : Unit} (h : becomeLeader.run s = .ok (u, s')) :
    s'.isLeader ∧ s'.commitIdx = s.commitIdx ∧
      s'.log = s.log.emplaceBack { term := s.currentTerm, idx := s.log.nextIdx, data := .dummy } := by
  cases hl : s.isLeader
  · simp only [isLeader] at hl
    simp [becomeLeader, addEntry, checkIsLeader, leaderState, setLeaderState, hl, isLeader] at h
    subst h
    exact ⟨rfl, rfl, rfl⟩
  · simp [becomeLeader, hl] at h

/-- One pass of the loop of `fsm::tick_leader` over the followers: allow one more probe or pipelined request,
and replicate to a follower that lags behind. -/
def tickLeaderLoop : List FollowerProgress → FsmM Unit
  | [] => pure ()
  | p :: ps => do
    let s ← get
    if p.id ≠ s.myId then
      let p' := match p.state with
        | .probe => { p with probeSent := false }
        | .pipeline => if p.inFlight = maxInFlight then { p with inFlight := p.inFlight - 1 } else p
        | .snapshot => p
      let ls ← leaderState
      setLeaderState { ls with tracker := ls.tracker.update p' }
      if p.state ≠ .snapshot ∧ (p'.matchIdx < s.log.lastIdx ∨ p'.commitIdx < s.commitIdx) then
        replicateTo p'.id true
    tickLeaderLoop ps

/-- `fsm::tick_leader`. -/
def tickLeader (isAlive : Nat → Bool) : FsmM Unit := do
  let s ← get
  -- A leader that did not hear from a quorum for an election timeout steps down (6.2).
  if s.electionElapsed ≥ electionTimeout then
    becomeFollower 0
    return
  let ls ← leaderState
  let active := ls.tracker.active fun id =>
    id == s.myId || ((ls.tracker.find? id).isSome && isAlive id)
  tickLeaderLoop ls.tracker.progress
  let ls ← leaderState
  -- Re-send the last read barrier in case it was lost.
  if ls.lastReadId ≠ ls.maxReadIdWithQuorum then broadcastReadQuorum ls.lastReadId
  if active then modify fun s => { s with lastElectionTime := s.now }
  let ls ← leaderState
  let s ← get
  if let some stepdown := ls.stepdown then
    match ls.tracker.find? s.myId with
    -- A removed or non-voting leader never aborts its stepdown.
    | some me =>
      if me.canVote then
        if stepdown ≤ s.now then
          setLeaderState { ls with stepdown := none, timeoutNowSent := none }
          modify fun s => { s with abortLeadershipTransfer := true }
        else if let some target := ls.timeoutNowSent then
          sendTo target (.timeoutNow { currentTerm := s.currentTerm })
    | none => pure ()

end Fsm

end Scylla.Raft
