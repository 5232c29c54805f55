import Mathlib

/-!
# Raft identifiers, configurations, log entries and messages

The value types of `raft/raft.hh`.  Server ids are UUIDs in the source; they are modelled by `Nat` with its
order, and the null UUID `server_id{}` is `0`.  Terms (`term_t`), log indexes (`index_t`) and read ids (`read_id`)
are `tagged_uint64`, and snapshot ids are UUIDs; all of them are `Nat` here, since no computation of the fsm
comes near `2^64` and the tags only keep the kinds apart.

A `config_member_set` is an `unordered_set` keyed by the member's id.  It is a list here, read through
`ConfigMember.find?` by id; iterating over it in list order is one of the orders an `unordered_set` may use.
The `server_info` of a member is dropped: only `log_entry::get_size` reads it, and nothing the development
proves depends on batching by size.
-/

namespace Scylla.Raft

/-- The exceptions the library throws (`invalid_argument`, `not_a_leader`, `conf_change_in_progress`,
`no_other_voting_member`, the error of a read barrier requested from outside the configuration) and a failed
`SCYLLA_ASSERT` or internal error. -/
inductive RaftError where
  | invalidArgument
  | notALeader
  | confChangeInProgress
  | noOtherVotingMember
  | outsideConfiguration
  | assertion
  deriving DecidableEq, Repr

/-- `raft::config_member`: a server of a configuration and whether it votes. -/
structure ConfigMember where
  id : Nat
  canVote : Bool
  deriving DecidableEq, Repr

/-- The member of a set with the given id (sets are keyed by id). -/
def ConfigMember.find? (s : List ConfigMember) (id : Nat) : Option ConfigMember :=
  s.find? fun m => m.id == id

/-- `raft::configuration`: during a change `previous` holds the old set and `current` the new one. -/
structure Configuration where
  current : List ConfigMember
  previous : List ConfigMember := []
  deriving DecidableEq, Repr

namespace Configuration

/-- True if the previous configuration is still in use. -/
def isJoint (c : Configuration) : Bool := !c.previous.isEmpty

/-- The number of voters of a member set. -/
def voterCount (s : List ConfigMember) : Nat := s.countP (·.canVote)

/-- `configuration::check`: a configuration must have at least one member and one voter. -/
def check (s : List ConfigMember) : Except RaftError Unit :=
  if s.isEmpty then .error .invalidArgument
  else if voterCount s = 0 then .error .invalidArgument
  else .ok ()

/-- True if the current or previous configuration contains the server. -/
def contains (c : Configuration) (id : Nat) : Bool :=
  (ConfigMember.find? c.current id).isSome || (ConfigMember.find? c.previous id).isSome

/-- Same as `contains`, but true only if the member can vote in one of the two sets. -/
def canVote (c : Configuration) (id : Nat) : Bool :=
  ((ConfigMember.find? c.current id).map (·.canVote)).getD false ||
    ((ConfigMember.find? c.previous id).map (·.canVote)).getD false

/-- `configuration::enter_joint`: the current set becomes the previous one. -/
def enterJoint (c : Configuration) (cNew : List ConfigMember) : Except RaftError Configuration :=
  if cNew.isEmpty then .error .invalidArgument
  else .ok { current := cNew, previous := c.current }

/-- `configuration::leave_joint`: transition from `C_old,new` to `C_new`. -/
def leaveJoint (c : Configuration) : Configuration := { c with previous := [] }

@[simp] theorem leaveJoint_isJoint (c : Configuration) : c.leaveJoint.isJoint = false := by
  simp [leaveJoint, isJoint]

theorem enterJoint_eq_ok {c c' : Configuration} {cNew : List ConfigMember}
    (h : c.enterJoint cNew = .ok c') : c' = { current := cNew, previous := c.current } ∧ cNew ≠ [] := by
  unfold enterJoint at h
  split at h
  · cases h
  · rename_i hne
    cases h
    exact ⟨rfl, by simpa using hne⟩

theorem enterJoint_isJoint {c c' : Configuration} {cNew : List ConfigMember} (hc : c.current ≠ [])
    (h : c.enterJoint cNew = .ok c') : c'.isJoint = true := by
  obtain ⟨rfl, -⟩ := enterJoint_eq_ok h
  simpa [isJoint] using hc

end Configuration

/-- `raft::command`, a serialized state machine command. -/
abbrev Command := List UInt8

/-- The payload of a log entry: a command, a configuration, or a dummy entry committed by a new leader. -/
inductive EntryData where
  | command (c : Command)
  | configuration (cfg : Configuration)
  | dummy
  deriving DecidableEq, Repr

/-- The configuration held by an entry, if it is a configuration entry. -/
def EntryData.config? : EntryData → Option Configuration
  | .configuration cfg => some cfg
  | _ => none

/-- `raft::log_entry`. -/
structure LogEntry where
  term : Nat
  idx : Nat
  data : EntryData
  deriving DecidableEq, Repr

/-- `sizeof(log_entry)` on the build platform.  Only batching and memory accounting read it. -/
def sizeofLogEntry : Nat := 64

/-- `log_entry::get_size`: the payload size plus the size of the entry itself; a configuration member counts its
16-byte id and its one-byte voter flag. -/
def LogEntry.getSize (e : LogEntry) : Nat :=
  (match e.data with
    | .command c => c.length
    | .configuration cfg => cfg.current.length * (16 + 1)
    | .dummy => 0) + sizeofLogEntry

/-- `raft::snapshot_descriptor`. -/
structure SnapshotDescriptor where
  idx : Nat := 0
  term : Nat := 0
  config : Configuration
  id : Nat := 0
  deriving DecidableEq, Repr

/-! ### Messages -/

structure AppendRequest where
  currentTerm : Nat
  prevLogIdx : Nat
  prevLogTerm : Nat
  leaderCommitIdx : Nat
  entries : List LogEntry
  deriving DecidableEq, Repr

/-- The result carried by an `append_reply`. -/
inductive AppendResult where
  | rejected (nonMatchingIdx lastIdx : Nat)
  | accepted (lastNewIdx : Nat)
  deriving DecidableEq, Repr

structure AppendReply where
  currentTerm : Nat
  commitIdx : Nat
  result : AppendResult
  deriving DecidableEq, Repr

structure VoteRequest where
  currentTerm : Nat
  lastLogIdx : Nat
  lastLogTerm : Nat
  isPrevote : Bool
  force : Bool
  deriving DecidableEq, Repr

structure VoteReply where
  currentTerm : Nat
  voteGranted : Bool
  isPrevote : Bool
  deriving DecidableEq, Repr

structure InstallSnapshot where
  currentTerm : Nat
  snp : SnapshotDescriptor
  deriving DecidableEq, Repr

structure SnapshotReply where
  currentTerm : Nat
  success : Bool
  deriving DecidableEq, Repr

structure TimeoutNow where
  currentTerm : Nat
  deriving DecidableEq, Repr

structure ReadQuorum where
  currentTerm : Nat
  leaderCommitIdx : Nat
  id : Nat
  deriving DecidableEq, Repr

structure ReadQuorumReply where
  currentTerm : Nat
  commitIdx : Nat
  id : Nat
  deriving DecidableEq, Repr

/-- `raft::rpc_message`. -/
inductive RpcMessage where
  | appendRequest (m : AppendRequest)
  | appendReply (m : AppendReply)
  | voteRequest (m : VoteRequest)
  | voteReply (m : VoteReply)
  | installSnapshot (m : InstallSnapshot)
  | snapshotReply (m : SnapshotReply)
  | timeoutNow (m : TimeoutNow)
  | readQuorum (m : ReadQuorum)
  | readQuorumReply (m : ReadQuorumReply)
  deriving DecidableEq, Repr

/-- The term every message carries. -/
def RpcMessage.currentTerm : RpcMessage → Nat
  | .appendRequest m => m.currentTerm
  | .appendReply m => m.currentTerm
  | .voteRequest m => m.currentTerm
  | .voteReply m => m.currentTerm
  | .installSnapshot m => m.currentTerm
  | .snapshotReply m => m.currentTerm
  | .timeoutNow m => m.currentTerm
  | .readQuorum m => m.currentTerm
  | .readQuorumReply m => m.currentTerm

end Scylla.Raft
