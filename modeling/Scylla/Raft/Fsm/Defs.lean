import Scylla.Lib.StateExcept
import Scylla.Raft.Tracker

/-!
# The state of the Raft fsm

`raft/fsm.hh`: the state a Raft server keeps between calls (its role, term, vote, log, commit index, the state
last observed by `get_output()`, the output and the messages not yet handed out), and the small operations every
handler uses.  The fsm runs in the monad `FsmM`: state passing with the exceptions and assertion failures of
the source as errors.

Two inputs of the source come from outside the fsm and are arguments here: the failure detector's
`is_alive`, and the draw of the random engine that `reset_election_timeout` makes.  The `log_limiter_semaphore`
of a leader and the condition variable `_sm_events` are dropped: they wake up or throttle the server's fibers and
change no state of the fsm.
-/

namespace Scylla.Raft

/-- `ELECTION_TIMEOUT`, in ticks of the logical clock. -/
def electionTimeout : Nat := 10

/-- `raft::fsm_config`. -/
structure FsmConfig where
  appendRequestThreshold : Nat
  maxLogSize : Nat
  enablePrevoting : Bool
  fastBootstrapSeed : Option Nat := none
  deriving DecidableEq, Repr

/-- `fsm_output::applied_snapshot`. -/
structure AppliedSnapshot where
  snp : SnapshotDescriptor
  isLocal : Bool
  preservedLogEntries : Nat
  deriving DecidableEq, Repr

/-- `raft::fsm_output`: what the server must persist, send and apply before the next `get_output()`. -/
structure FsmOutput where
  termAndVote : Option (Nat × Nat) := none
  logEntries : List LogEntry := []
  messages : List (Nat × RpcMessage) := []
  committed : List LogEntry := []
  snp : Option AppliedSnapshot := none
  snpsToDrop : List Nat := []
  configuration : Option (List ConfigMember) := none
  maxReadIdWithQuorum : Option Nat := none
  stateChanged : Bool := false
  abortLeadershipTransfer : Bool := false
  deriving DecidableEq, Repr

/-- `raft::leader`, less its semaphore. -/
structure LeaderState where
  tracker : Tracker
  /-- The time point at which an unfinished leadership transfer is aborted. -/
  stepdown : Option Nat := none
  timeoutNowSent : Option Nat := none
  lastReadId : Nat := 0
  lastReadIdChanged : Bool := false
  maxReadIdWithQuorum : Nat := 0
  deriving DecidableEq, Repr

/-- The variant `std::variant<follower, candidate, leader>` of the fsm. -/
inductive Role where
  | follower (currentLeader : Nat)
  | candidate (votes : Votes) (isPrevote : Bool)
  | leader (st : LeaderState)
  deriving DecidableEq, Repr

/-- `fsm::last_observed_state`. -/
structure LastObservedState where
  currentTerm : Nat
  votedFor : Nat
  commitIdx : Nat
  lastConfIdx : Nat
  lastTerm : Nat
  abortLeadershipTransfer : Bool
  deriving DecidableEq, Repr

/-- `raft::fsm`. -/
structure Fsm where
  myId : Nat
  state : Role
  currentTerm : Nat
  votedFor : Nat
  /-- Index of the highest log entry known to be committed. -/
  commitIdx : Nat
  log : Log
  config : FsmConfig
  abortLeadershipTransfer : Bool
  pingLeader : Bool
  observed : LastObservedState
  output : FsmOutput
  /-- `_clock.now()`. -/
  now : Nat
  lastElectionTime : Nat
  randomizedElectionTimeout : Nat
  /-- Replies and requests not yet handed out by `get_output()`. -/
  messages : List (Nat × RpcMessage)
  deriving DecidableEq, Repr

/-- The fsm's computations: state passing, with the exceptions and failed assertions of the source as errors. -/
abbrev FsmM := StateT Fsm (Except RaftError)

namespace Fsm

def isLeader (s : Fsm) : Bool := s.state matches .leader _
def isFollower (s : Fsm) : Bool := s.state matches .follower _
def isCandidate (s : Fsm) : Bool := s.state matches .candidate _ _

theorem isLeader_eq_true {s : Fsm} : s.isLeader = true ↔ ∃ ls, s.state = .leader ls := by
  unfold isLeader
  split
  · exact ⟨fun _ => ⟨_, ‹_›⟩, fun _ => rfl⟩
  · constructor
    · intro h; cases h
    · rintro ⟨ls, hls⟩
      exact absurd hls (‹∀ st, s.state = .leader st → False› ls)

/-- `fsm::current_leader`. -/
def currentLeader (s : Fsm) : Nat :=
  match s.state with
  | .leader _ => s.myId
  | .candidate _ _ => 0
  | .follower l => l

/-- `fsm::election_elapsed`. -/
def electionElapsed (s : Fsm) : Nat := s.now - s.lastElectionTime

/-- `fsm::is_past_election_timeout`. -/
def isPastElectionTimeout (s : Fsm) : Bool := s.electionElapsed ≥ s.randomizedElectionTimeout

/-- `last_observed_state::advance`. -/
def observe (s : Fsm) : LastObservedState :=
  { currentTerm := s.currentTerm, votedFor := s.votedFor, commitIdx := s.commitIdx,
    lastConfIdx := s.log.lastConfIdx, lastTerm := s.log.lastTerm,
    abortLeadershipTransfer := s.abortLeadershipTransfer }

/-- `fsm::send_to`. -/
def sendTo (dst : Nat) (m : RpcMessage) : FsmM Unit :=
  modify fun s => { s with messages := s.messages ++ [(dst, m)] }

/-- `fsm::leader_state`: the leader's state, an error (`bad_variant_access`) on another role. -/
def leaderState : FsmM LeaderState := do
  match (← get).state with
  | .leader ls => pure ls
  | _ => throw .assertion

/-- Write back the leader's state. -/
def setLeaderState (ls : LeaderState) : FsmM Unit :=
  modify fun s => { s with state := .leader ls }

/-- `fsm::check_is_leader`. -/
def checkIsLeader : FsmM Unit := do
  unless (← get).isLeader do throw .notALeader

/-- `fsm::update_current_term`: a new term clears the vote. -/
def updateCurrentTerm (t : Nat) : FsmM Unit := do
  let s ← get
  if s.currentTerm < t then set { s with currentTerm := t, votedFor := 0 }
  else throw .assertion

/-- `fsm::reset_election_timeout`: a timeout in `ELECTION_TIMEOUT + [1, max(ELECTION_TIMEOUT, size)]`, where
`rnd` is the random engine's draw. -/
def resetElectionTimeout (rnd : Nat) : FsmM Unit :=
  modify fun s =>
    let n := max electionTimeout s.log.getConfiguration.current.length
    { s with randomizedElectionTimeout := electionTimeout + (1 + rnd % n) }

/-- `fsm::advance_commit_idx`: a follower learns the leader's commit index, capped by its own log. -/
def advanceCommitIdx (leaderCommitIdx : Nat) : FsmM Unit :=
  modify fun s =>
    let newCommitIdx := min leaderCommitIdx s.log.lastIdx
    if newCommitIdx > s.commitIdx then { s with commitIdx := newCommitIdx } else s

/-- `fsm::become_follower`. -/
def becomeFollower (leader : Nat) : FsmM Unit := do
  let s ← get
  if leader = s.myId then throw .assertion
  let s := if !s.isFollower then { s with output.stateChanged := true } else s
  let s := { s with state := .follower leader }
  set (if leader ≠ 0 then { s with pingLeader := false, lastElectionTime := s.now } else s)

end Fsm

end Scylla.Raft
