import Scylla.Raft.Fsm.Election

/-!
# Messages, ticks, output and construction

`raft/fsm.hh` and `raft/fsm.cc`: the entry points of the fsm.  `step` first compares the message's term with the
server's own (3.3: a newer term makes the server a follower of that term, a stale message is rejected), then hands
the message to the handler of the server's role.  `get_output` hands out what must be persisted, sent and applied,
and advances the observed state.
-/

namespace Scylla.Raft

namespace Fsm

/-- `fsm::append_entries`: a follower checks that its log matches the leader's at `prev_log_idx`, appends, and
advances its commit index no further than the last entry it got (#9965). -/
def appendEntries (src : Nat) (req : AppendRequest) : FsmM Unit := do
  let s ← get
  if !s.isFollower then throw .assertion
  if !(s.log.matchTerm req.prevLogIdx req.prevLogTerm).1 then
    sendTo src (.appendReply { currentTerm := s.currentTerm, commitIdx := s.commitIdx,
                               result := .rejected req.prevLogIdx s.log.lastIdx })
    return
  let lastNewIdx ←
    if req.entries.isEmpty then pure req.prevLogIdx
    else do
      let (l, i) ← StateT.lift (s.log.maybeAppend req.entries)
      set { s with log := l }
      pure i
  advanceCommitIdx (min req.leaderCommitIdx lastNewIdx)
  let s ← get
  sendTo src (.appendReply { currentTerm := s.currentTerm, commitIdx := s.commitIdx, result := .accepted lastNewIdx })

/-- `fsm::apply_snapshot`: a local snapshot covers only applied entries; a remote one is applied by a follower
only if it is ahead of its commit index, which it then becomes. -/
def applySnapshot (snp : SnapshotDescriptor) (maxTrailingEntries maxTrailingBytes : Nat) (isLocal : Bool) :
    FsmM Bool := do
  let s ← get
  unless (isLocal ∧ snp.idx ≤ s.observed.commitIdx) ∨ (!isLocal ∧ s.isFollower) do throw .assertion
  let currentSnp := s.log.snapshot
  -- Older snapshots would apply commands out of order.
  if snp.idx ≤ currentSnp.idx ∨ (!isLocal ∧ snp.idx ≤ s.commitIdx) then
    set { s with output.snpsToDrop := s.output.snpsToDrop ++ [snp.id] }
    return false
  let (l, _, newFirstIndex) ← StateT.lift (s.log.applySnapshot snp maxTrailingEntries maxTrailingBytes)
  set { s with commitIdx := max s.commitIdx snp.idx, log := l,
               output := { s.output with
                 snpsToDrop := s.output.snpsToDrop ++ [currentSnp.id]
                 snp := some { snp := l.snapshot, isLocal,
                               preservedLogEntries := l.snapshot.idx + 1 - newFirstIndex } } }
  return true

/-- The handlers of `fsm::step` for each role. -/
def dispatch (src : Nat) (msg : RpcMessage) (rnd : Nat) : FsmM Unit := do
  let s ← get
  match s.state, msg with
  -- A leader gets no append request of its own term; ignore it.
  | .leader _, .appendRequest _ => pure ()
  | .leader _, .appendReply m => appendEntriesReply src m
  | .leader _, .voteRequest m => requestVote src m
  | .leader _, .installSnapshot _ => sendTo src (.snapshotReply { currentTerm := s.currentTerm, success := false })
  | .leader _, .snapshotReply m => installSnapshotReply src m
  | .leader _, .readQuorumReply m => handleReadQuorumReply src m
  | .candidate _ _, .voteRequest m => requestVote src m
  | .candidate _ _, .voteReply m => requestVoteReply src m rnd
  | .candidate _ _, .installSnapshot _ =>
    sendTo src (.snapshotReply { currentTerm := s.currentTerm, success := false })
  | .candidate _ _, .appendReply _ => maybeResendVoteRequest src
  | .follower _, .appendRequest m => appendEntries src m
  | .follower _, .voteRequest m => requestVote src m
  | .follower _, .installSnapshot m => do
    let success ← applySnapshot m.snp 0 0 false
    sendTo src (.snapshotReply { currentTerm := s.currentTerm, success })
  -- Leadership transfers never pre-vote.
  | .follower _, .timeoutNow _ => becomeCandidate false true rnd
  | .follower _, .readQuorum m => do
    advanceCommitIdx m.leaderCommitIdx
    let s ← get
    sendTo src (.readQuorumReply { currentTerm := s.currentTerm, commitIdx := s.commitIdx, id := m.id })
  | _, _ => pure ()

/-- `fsm::step`: process one message from `src`. -/
def step (src : Nat) (msg : RpcMessage) (rnd : Nat) : FsmM Unit := do
  let s ← get
  if src = s.myId then throw .assertion
  if msg.currentTerm > s.currentTerm then
    -- A reply to a read barrier from a newer term cannot happen; it is ignored.
    if msg matches .readQuorumReply _ then return
    let leader := match msg with
      | .appendRequest _ | .installSnapshot _ | .readQuorum _ => src
      | _ => 0
    -- Pre-votes do not move terms; a granted pre-vote is for a term the candidate has not taken yet.
    let ignoreTerm := match msg with
      | .voteRequest m => m.isPrevote
      | .voteReply m => m.isPrevote && m.voteGranted
      | _ => false
    if !ignoreTerm then
      becomeFollower leader
      updateCurrentTerm msg.currentTerm
  else if msg.currentTerm < s.currentTerm then
    match msg with
    -- Tells a stale leader to step down.
    | .appendRequest _ | .readQuorum _ =>
      sendTo src (.appendReply { currentTerm := s.currentTerm, commitIdx := s.commitIdx,
                                 result := .rejected 0 s.log.lastIdx })
    | .installSnapshot _ => sendTo src (.snapshotReply { currentTerm := s.currentTerm, success := false })
    | .voteRequest m =>
      if m.isPrevote then
        sendTo src (.voteReply { currentTerm := s.currentTerm, voteGranted := false, isPrevote := true })
    -- A stale ping from a peer looking for a leader.
    | .appendReply _ => if s.isCandidate then maybeResendVoteRequest src
    | _ => pure ()
    return
  else
    match msg with
    | .appendRequest _ | .installSnapshot _ | .readQuorum _ =>
      -- A message from the leader of our term (3.4).
      match s.state with
      | .candidate _ _ => becomeFollower src
      | .follower 0 => set { s with state := .follower src, pingLeader := false }
      | _ => pure ()
      modify fun s => { s with lastElectionTime := s.now }
    | _ => pure ()
  dispatch src msg rnd

/-- `fsm::send_ping_messages`: a follower without a leader solicits one from every live voter. -/
def sendPingMessages (isAlive : Nat → Bool) : FsmM Unit := do
  let s ← get
  let cfg := s.log.getConfiguration
  if !cfg.isJoint && (ConfigMember.find? cfg.current s.myId).isSome then
    let pings := (cfg.current.filter fun m => m.canVote && m.id != s.myId && isAlive m.id).map fun m =>
      (m.id, RpcMessage.appendReply { currentTerm := s.currentTerm, commitIdx := s.commitIdx,
                                      result := .rejected 0 0 })
    set { s with messages := s.messages ++ pings }

/-- `fsm::tick`: advance the clock; followers of a dead or unknown leader start an election after the timeout. -/
def tick (isAlive : Nat → Bool) (rnd : Nat) : FsmM Unit := do
  modify fun s => { s with now := s.now + 1 }
  let s ← get
  -- A leader that is no voter has likely stepped down, so it is no stable leader.
  let hasStableLeader :=
    s.currentLeader != 0 && s.log.getConfiguration.canVote s.currentLeader && isAlive s.currentLeader
  if s.isLeader then tickLeader isAlive
  else if hasStableLeader then modify fun s => { s with lastElectionTime := s.now }
  else if s.isPastElectionTimeout then becomeCandidate s.config.enablePrevoting false rnd
  let s ← get
  if s.isFollower && s.currentLeader == 0 && s.pingLeader then sendPingMessages isAlive

/-- The entries with indexes `lo, …, hi` of the log. -/
def entriesRange (l : Log) (lo hi : Nat) : Except RaftError (List LogEntry) :=
  (List.range' lo (hi + 1 - lo)).mapM fun i => match l.getEntry i with
    | some e => .ok e
    | none => .error .assertion

/-- The members of both halves of a configuration, `current` first (`config_member_set::merge`). -/
def mergedMembers (cfg : Configuration) : List ConfigMember :=
  cfg.current ++ cfg.previous.filter fun m => (ConfigMember.find? cfg.current m.id).isNone

/-- The leader's part of `fsm::get_output`: delayed read quorum requests go out, and new entries are
replicated. -/
def flushLeader (diff : Nat) : FsmM Unit := do
  if (← get).isLeader then
    let ls ← leaderState
    if ls.lastReadIdChanged then
      broadcastReadQuorum ls.lastReadId
      let ls ← leaderState
      setLeaderState { ls with lastReadIdChanged := false }
    if diff ≠ 0 then replicate

/-- The rest of `fsm::get_output`: the entries to persist, the term and vote if changed, the newly committed
entries above both the observed commit index and the snapshot, the messages, and the configuration if it changed;
then the observed state advances. -/
def takeOutput (diff : Nat) : FsmM FsmOutput := do
  let s ← get
  let logEntries ← StateT.lift (if diff > 0 then entriesRange s.log (s.log.stableIdx + 1) s.log.lastIdx else .ok [])
  let termAndVote :=
    if s.observed.currentTerm ≠ s.currentTerm ∨ s.observed.votedFor ≠ s.votedFor then
      some (s.currentTerm, s.votedFor)
    else s.output.termAndVote
  -- The observed commit index may be below the snapshot, whose entries are not applied again.
  let observedCi := max s.observed.commitIdx s.log.snapshot.idx
  let committed ← StateT.lift
    (if observedCi < s.commitIdx then entriesRange s.log (observedCi + 1) s.commitIdx else .ok [])
  let configuration :=
    if s.observed.lastConfIdx ≠ s.log.lastConfIdx ∨
        (s.observed.currentTerm ≠ s.log.lastTerm ∧ s.observed.lastTerm ≠ s.log.lastTerm) then
      some (mergedMembers s.log.getConfiguration)
    else s.output.configuration
  let output : FsmOutput :=
    { s.output with logEntries := s.output.logEntries ++ logEntries, termAndVote,
                    committed := s.output.committed ++ committed, messages := s.messages,
                    abortLeadershipTransfer := s.abortLeadershipTransfer, configuration }
  let s := { s with output := {}, messages := s.output.messages, abortLeadershipTransfer := false }
  set { s with observed := s.observe }
  -- The stable index moves only after everything that can fail.
  if let some e := output.logEntries.getLast? then advanceStableIdx e.idx
  return output

/-- `fsm::get_output`; the number of entries to persist is taken before the leader replicates. -/
def getOutput : FsmM FsmOutput := do
  let s ← get
  let diff := s.log.lastIdx - s.log.stableIdx
  flushLeader diff
  takeOutput diff

/-- `start_as_candidate` of the constructor: the sole voter of a one-member group, or with fast bootstrap the
voter of a fresh group whose rank among the voters by id is the seed modulo their number. -/
def startAsCandidate (myId : Nat) (log : Log) (config : FsmConfig) : Bool :=
  let cfg := log.getConfiguration
  if !cfg.canVote myId then false
  else if cfg.current.length = 1 then true
  else match config.fastBootstrapSeed with
    | none => false
    | some seed =>
      if log.lastIdx ≠ 0 then false
      else
        let voters := cfg.current.filter (·.canVote)
        let rank := (voters.filter (·.id < myId)).length
        rank == seed % voters.length

/-- The constructor `fsm::fsm`: the commit index starts at the snapshot, is observed there, and is then raised to
the persisted one so that the log is replayed. -/
def create (myId currentTerm votedFor : Nat) (log : Log) (commitIdx : Nat) (config : FsmConfig) (rnd : Nat) :
    Except RaftError Fsm := do
  if myId = 0 then throw .invalidArgument
  let s : Fsm :=
    { myId, state := .follower 0, currentTerm, votedFor, commitIdx := log.snapshot.idx, log, config,
      abortLeadershipTransfer := false, pingLeader := false,
      observed := { currentTerm := 0, votedFor := 0, commitIdx := 0, lastConfIdx := 0, lastTerm := 0,
                    abortLeadershipTransfer := false },
      output := {}, now := 0, lastElectionTime := 0, randomizedElectionTimeout := electionTimeout + 1,
      messages := [] }
  let s := { s with observed := s.observe }
  let s := { s with commitIdx := max s.commitIdx commitIdx }
  let start := if startAsCandidate myId log config then becomeCandidate false false rnd else resetElectionTimeout rnd
  return (← start.run s).2

/-- `fsm::ping_leader`: search for a leader, which must not be known. -/
def pingLeaderOp (isAlive : Nat → Bool) : FsmM Unit := do
  if (← get).currentLeader ≠ 0 then throw .assertion
  modify fun s => { s with pingLeader := true }
  sendPingMessages isAlive

/-- `fsm::stop`: a leader becomes a follower to stop accepting requests. -/
def stop : FsmM Unit := do
  if (← get).isLeader then becomeFollower 0

/-! ### Runs of one fsm -/

/-- The public entry points of `raft::fsm` that its server calls. -/
inductive Op where
  | tick (isAlive : Nat → Bool) (rnd : Nat)
  | step (src : Nat) (msg : RpcMessage) (rnd : Nat)
  | addEntry (data : EntryData)
  | getOutput
  | applySnapshot (snp : SnapshotDescriptor) (maxTrailingEntries maxTrailingBytes : Nat) (isLocal : Bool)
  | transferLeadership (timeout : Nat)
  | startReadBarrier (requester : Nat)
  | pingLeader (isAlive : Nat → Bool)
  | stop

/-- Call an entry point (the namesakes in `Fsm`); `get_output` hands out its output. -/
def Op.exec : Op → FsmM (Option FsmOutput)
  | .tick isAlive rnd => do Fsm.tick isAlive rnd; return none
  | .step src msg rnd => do Fsm.step src msg rnd; return none
  | .addEntry data => do Fsm.addEntry data; return none
  | .getOutput => return some (← Fsm.getOutput)
  | .applySnapshot snp maxTrailingEntries maxTrailingBytes isLocal => do
    let _ ← Fsm.applySnapshot snp maxTrailingEntries maxTrailingBytes isLocal
    return none
  | .transferLeadership timeout => do Fsm.transferLeadership timeout; return none
  | .startReadBarrier requester => do
    let _ ← Fsm.startReadBarrier requester
    return none
  | .pingLeader isAlive => do Fsm.pingLeaderOp isAlive; return none
  | .stop => do Fsm.stop; return none

/-- The runs of one fsm: the calls that succeed, one after the other, with the outputs handed out.  A call that
throws is not part of the run; the server sees the exception and the fsm stays as it was. -/
inductive Run : Fsm → List FsmOutput → Fsm → Prop where
  | nil (s : Fsm) : Run s [] s
  | cons {s s' t : Fsm} {o : Option FsmOutput} {outs : List FsmOutput} (op : Op) :
      op.exec.run s = .ok (o, s') → Run s' outs t → Run s (o.toList ++ outs) t

end Fsm

end Scylla.Raft
