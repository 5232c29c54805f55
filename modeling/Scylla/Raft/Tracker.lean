import Scylla.Raft.Log

/-!
# Replication progress and vote counting

`raft/tracker.cc`: the leader's view of each follower (`follower_progress`), the `tracker` that computes the
commit index and the read barrier quorum under a simple or joint configuration, and the `votes` a candidate
collects.  The maps and sets of the source are lists keyed by server id; `tracker::committed` sorts the match
vector where the source calls `std::nth_element`, which yields the same element.
-/

namespace Scylla.Raft

/-- `follower_progress::state`. -/
inductive ProgressState where
  | probe
  | pipeline
  | snapshot
  deriving DecidableEq, Repr

/-- `raft::follower_progress`: the leader's view of one follower, itself included. -/
structure FollowerProgress where
  id : Nat
  /-- Index of the next log entry to send to this server. -/
  nextIdx : Nat
  /-- The greatest `last_new_idx` this follower accepted in the leader's term. -/
  matchIdx : Nat := 0
  /-- Index the leader knows the follower to have committed. -/
  commitIdx : Nat := 0
  /-- Highest read id the follower replied to. -/
  maxAckedRead : Nat := 0
  canVote : Bool := true
  state : ProgressState := .probe
  probeSent : Bool := false
  inFlight : Nat := 0
  deriving DecidableEq, Repr

namespace FollowerProgress

/-- `follower_progress::max_in_flight`. -/
def maxInFlight : Nat := 10

/-- `follower_progress::is_stray_reject`: a reject that a delayed or reordered reply explains. -/
def isStrayReject (p : FollowerProgress) (nonMatchingIdx lastIdx : Nat) : Bool :=
  if nonMatchingIdx ≤ p.matchIdx then true
  else if lastIdx < p.matchIdx then true
  else match p.state with
    | .pipeline => false
    | .probe => nonMatchingIdx != p.nextIdx - 1
    | .snapshot => true

def becomeProbe (p : FollowerProgress) : FollowerProgress := { p with state := .probe, probeSent := false }

def becomePipeline (p : FollowerProgress) : FollowerProgress :=
  if p.state != .pipeline then { p with state := .pipeline, inFlight := 0 } else p

def becomeSnapshot (p : FollowerProgress) (snpIdx : Nat) : FollowerProgress :=
  { p with state := .snapshot, nextIdx := snpIdx + 1 }

/-- `follower_progress::accepted`: replies can arrive out of order, so both indexes only grow. -/
def accepted (p : FollowerProgress) (idx : Nat) : FollowerProgress :=
  { p with matchIdx := max idx p.matchIdx, nextIdx := max (idx + 1) p.nextIdx }

/-- `follower_progress::can_send_to`. -/
def canSendTo (p : FollowerProgress) : Bool :=
  match p.state with
  | .probe => !p.probeSent
  | .pipeline => p.inFlight < maxInFlight
  | .snapshot => false

end FollowerProgress

/-- `raft::tracker`: the progress of every member of the configuration and the two voter sets. -/
structure Tracker where
  progress : List FollowerProgress
  currentVoters : List Nat
  previousVoters : List Nat
  deriving DecidableEq, Repr

namespace Tracker

/-- `tracker::find`. -/
def find? (t : Tracker) (id : Nat) : Option FollowerProgress := t.progress.find? (·.id == id)

/-- Write back the progress of a follower found by `find?`. -/
def update (t : Tracker) (p : FollowerProgress) : Tracker :=
  { t with progress := t.progress.map fun q => if q.id == p.id then p else q }

/-- One pass of the lambda of `tracker::set_configuration` over a member set: keep the old progress of a known
member, start a new member at `next_idx`, and refresh its voting right from the whole configuration. -/
def emplaceSimpleConfig (cfg : Configuration) (nextIdx : Nat) (old : List FollowerProgress) :
    List ConfigMember → List FollowerProgress × List Nat → List FollowerProgress × List Nat
  | [], acc => acc
  | s :: ss, (ps, voters) =>
    let voters := if s.canVote then voters ++ [s.id] else voters
    if (ps.find? (·.id == s.id)).isSome then emplaceSimpleConfig cfg nextIdx old ss (ps, voters)
    else
      let p : FollowerProgress := match old.find? (·.id == s.id) with
        | some q => q
        | none => { id := s.id, nextIdx := nextIdx }
      emplaceSimpleConfig cfg nextIdx old ss (ps ++ [{ p with canVote := cfg.canVote s.id }], voters)

/-- `tracker::set_configuration`. -/
def setConfiguration (t : Tracker) (cfg : Configuration) (nextIdx : Nat) : Tracker :=
  let (ps, cur) := emplaceSimpleConfig cfg nextIdx t.progress cfg.current ([], [])
  if cfg.isJoint then
    let (ps', prev) := emplaceSimpleConfig cfg nextIdx t.progress cfg.previous (ps, [])
    { progress := ps', currentVoters := cur, previousVoters := prev }
  else { progress := ps, currentVoters := cur, previousVoters := [] }

/-- The empty tracker a new leader starts from. -/
def empty : Tracker := { progress := [], currentVoters := [], previousVoters := [] }

/-- `match_vector::committed`: more than half of the voters are past the previous commit point. -/
def matchCommitted (prev : Nat) (ms : List Nat) : Bool :=
  ms.countP (· > prev) ≥ ms.length / 2 + 1

/-- `match_vector::commit_idx`: the element `std::nth_element` puts at `(size - 1) / 2`, which is the element
at that position of the ascending sort. -/
def matchCommitIdx (ms : List Nat) : Nat :=
  (ms.insertionSort (· ≤ ·)).getD ((ms.length - 1) / 2) 0

/-- The match vector of a voter set: `match_idx` of the voters for the commit index, `max_acked_read` for reads,
in the order of the progress map. -/
def matchVector (t : Tracker) (voters : List Nat) (key : FollowerProgress → Nat) : List Nat :=
  (t.progress.filter fun p => voters.contains p.id).map key

/-- `tracker::committed`: the index (or read id) that a majority of the voters, and in a joint configuration a
majority of both voter sets, have reached; `prev` when there is none. -/
def committed (t : Tracker) (key : FollowerProgress → Nat) (prev : Nat) : Nat :=
  let cur := t.matchVector t.currentVoters key
  if !t.previousVoters.isEmpty then
    let old := t.matchVector t.previousVoters key
    if !matchCommitted prev cur || !matchCommitted prev old then prev
    else min (matchCommitIdx cur) (matchCommitIdx old)
  else if !matchCommitted prev cur then prev
  else matchCommitIdx cur

/-- `tracker::activity_tracker`: whether the servers heard from form a quorum of each voter set. -/
def active (t : Tracker) (heard : Nat → Bool) : Bool :=
  let cur := t.currentVoters.countP heard
  let prev := t.previousVoters.countP heard
  decide (cur ≥ t.currentVoters.length / 2 + 1) &&
    (t.previousVoters.isEmpty || decide (prev ≥ t.previousVoters.length / 2 + 1))

end Tracker

/-- `raft::vote_result`. -/
inductive VoteResult where
  | unknown
  | won
  | lost
  deriving DecidableEq, Repr

/-- `raft::election_tracker`: the votes of one voter set. -/
structure ElectionTracker where
  suffrage : List Nat
  responded : List Nat
  granted : Nat
  deriving DecidableEq, Repr

namespace ElectionTracker

/-- The election tracker of a member set: its voters, none of them heard from yet. -/
def ofMembers (s : List ConfigMember) : ElectionTracker :=
  { suffrage := (s.filter (·.canVote)).map (·.id), responded := [], granted := 0 }

/-- `election_tracker::register_vote`: count the first response of each voter; false for a non-voter. -/
def registerVote (e : ElectionTracker) (src : Nat) (granted : Bool) : Bool × ElectionTracker :=
  if !e.suffrage.contains src then (false, e)
  else if e.responded.contains src then (true, e)
  else (true, { e with responded := e.responded ++ [src], granted := e.granted + if granted then 1 else 0 })

/-- `election_tracker::tally_votes`. -/
def tallyVotes (e : ElectionTracker) : VoteResult :=
  let quorum := e.suffrage.length / 2 + 1
  if e.granted ≥ quorum then .won
  else if e.granted + (e.suffrage.length - e.responded.length) ≥ quorum then .unknown
  else .lost

end ElectionTracker

/-- `raft::votes`: the votes of a candidate, counted in the current and, while joint, the previous set. -/
structure Votes where
  /-- The voters of either set; a vote request goes to each of them. -/
  voters : List Nat
  current : ElectionTracker
  previous : Option ElectionTracker
  deriving DecidableEq, Repr

namespace Votes

/-- The constructor `votes::votes(configuration)`. -/
def ofConfiguration (cfg : Configuration) : Votes :=
  { voters := ((cfg.previous ++ cfg.current).filter (·.canVote)).foldl
      (fun vs m => if vs.contains m.id then vs else vs ++ [m.id]) []
    current := ElectionTracker.ofMembers cfg.current
    previous := if cfg.isJoint then some (ElectionTracker.ofMembers cfg.previous) else none }

/-- `votes::register_vote`. -/
def registerVote (v : Votes) (src : Nat) (granted : Bool) : Votes :=
  { v with current := (v.current.registerVote src granted).2
           previous := v.previous.map fun p => (p.registerVote src granted).2 }

/-- `votes::tally_votes`: a joint election is decided by the previous set first. -/
def tallyVotes (v : Votes) : VoteResult :=
  match v.previous with
  | some p => if p.tallyVotes != .won then p.tallyVotes else v.current.tallyVotes
  | none => v.current.tallyVotes

/-- `votes::has_responded`. -/
def hasResponded (v : Votes) (id : Nat) : Bool := v.current.responded.contains id

end Votes

end Scylla.Raft
