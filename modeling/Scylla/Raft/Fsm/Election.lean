import Scylla.Raft.Fsm.Leader

/-!
# Elections

`raft/fsm.cc`: campaigning (`become_candidate`, with its pre-vote round), granting votes (`request_vote`) and
counting them (`request_vote_reply`).

A server votes in a term at most once: it grants a real vote only to the server it already voted for, or when
it has not voted and knows no leader.  A pre-vote is granted without recording anything.  A candidate that is no
voter of the configuration in force still campaigns when the last configuration is uncommitted and it was a
voter of the previous one (Raft PhD 4.2.2).
-/

namespace Scylla.Raft

namespace Fsm

/-- The loop of `become_candidate` over the voters: vote for itself, ask everyone else. -/
def campaignLoop (term : Nat) (isPrevote isLeadershipTransfer : Bool) : List Nat → Votes → FsmM Votes
  | [], v => pure v
  | id :: ids, v => do
    let s ← get
    if id = s.myId then
      -- Only real votes are recorded.
      if !isPrevote then set { s with votedFor := s.myId }
      campaignLoop term isPrevote isLeadershipTransfer ids (v.registerVote id true)
    else
      sendTo id (.voteRequest { currentTerm := term, lastLogIdx := s.log.lastIdx, lastLogTerm := s.log.lastTerm,
                                isPrevote, force := isLeadershipTransfer })
      campaignLoop term isPrevote isLeadershipTransfer ids v

/-- The body of `fsm::become_candidate` up to its last step; returns whether the candidate already won, which
happens when it is the only voter. -/
def campaign (isPrevote isLeadershipTransfer : Bool) (rnd : Nat) : FsmM Bool := do
  let s ← get
  let s := if !s.isCandidate then { s with output.stateChanged := true } else s
  let votes := Votes.ofConfiguration s.log.getConfiguration
  set { s with state := .candidate votes isPrevote }
  resetElectionTimeout rnd
  modify fun s => { s with lastElectionTime := s.now }
  let s ← get
  if !votes.voters.contains s.myId then
    -- Not a voter now: campaign only while the new configuration is uncommitted and we voted before it.
    if s.log.lastConfIdx ≤ s.commitIdx then
      becomeFollower 0
      return false
    let some prevCfg := s.log.getPrevConfiguration | throw .assertion
    if !prevCfg.canVote s.myId then
      becomeFollower 0
      return false
  let term := s.currentTerm + 1
  if !isPrevote then updateCurrentTerm term
  let votes ← campaignLoop term isPrevote isLeadershipTransfer votes.voters votes
  modify fun s => { s with state := .candidate votes isPrevote }
  return votes.tallyVotes == .won

/-- `fsm::become_candidate`: a won pre-vote round is followed by the real election. -/
def becomeCandidate (isPrevote isLeadershipTransfer : Bool) (rnd : Nat) : FsmM Unit := do
  if ← campaign isPrevote isLeadershipTransfer rnd then
    if isPrevote then
      if ← campaign false false rnd then becomeLeader
    else becomeLeader

/-- `fsm::request_vote`: grant a vote to an up-to-date candidate unless already voted for someone else in the
term or following a leader; pre-votes for a future term are granted without being recorded. -/
def requestVote (src : Nat) (req : VoteRequest) : FsmM Unit := do
  let s ← get
  if !req.isPrevote ∧ s.currentTerm ≠ req.currentTerm then throw .assertion
  let canVote :=
    s.votedFor == src || (s.votedFor == 0 && s.currentLeader == 0) ||
      (req.isPrevote && decide (req.currentTerm > s.currentTerm))
  if canVote && s.log.isUpToDate req.lastLogIdx req.lastLogTerm then
    if !req.isPrevote then set { s with lastElectionTime := s.now, votedFor := src }
    -- The reply carries the request's term, which for a pre-vote is ahead of ours.
    sendTo src (.voteReply { currentTerm := req.currentTerm, voteGranted := true, isPrevote := req.isPrevote })
  else
    sendTo src (.voteReply { currentTerm := s.currentTerm, voteGranted := false, isPrevote := req.isPrevote })

/-- `fsm::request_vote_reply`: count the vote; a pre-vote reply never counts in a real election. -/
def requestVoteReply (src : Nat) (reply : VoteReply) (rnd : Nat) : FsmM Unit := do
  let s ← get
  let .candidate votes isPrevote := s.state | throw .assertion
  if isPrevote ≠ reply.isPrevote then return
  let votes := votes.registerVote src reply.voteGranted
  set { s with state := .candidate votes isPrevote }
  match votes.tallyVotes with
  | .unknown => pure ()
  | .won => if isPrevote then becomeCandidate false false rnd else becomeLeader
  | .lost => becomeFollower 0

/-- `fsm::maybe_resend_vote_request`: re-send to a voter that has not answered yet. -/
def maybeResendVoteRequest (dst : Nat) : FsmM Unit := do
  let s ← get
  let .candidate votes isPrevote := s.state | throw .assertion
  if !votes.hasResponded dst then
    sendTo dst (.voteRequest { currentTerm := s.currentTerm, lastLogIdx := s.log.lastIdx,
                               lastLogTerm := s.log.lastTerm, isPrevote, force := false })

end Fsm

end Scylla.Raft
