import Scylla.Raft.Group

/-!
# Leaving a joint configuration

A configuration change is two log entries: the joint configuration `C_old,new`, and `C_new`, which the leader
appends as soon as it knows the joint entry committed (4.3).  The comment on `_last_conf_idx` in `raft/log.hh`
says what the index is for: to detect `_commit_idx >= _last_conf_idx && _configuration.is_joint()` and then
append the entry for `C_new`.  `fsm::maybe_commit` makes that test only when its own commit index crosses
`last_conf_idx()`.

A follower learns commit indexes from `append_request` and from `read_quorum`, and the latter carries
`min(match_idx, commit_idx)`, so a follower can know the joint entry committed without holding `C_new`.  When it
then wins an election, `become_leader` appends only the dummy entry (`becomeLeader_stuckInJoint`).  The new
leader is stuck: its commit index is already past the joint entry, so `maybe_commit` never appends `C_new`
(`maybeCommit_stuckInJoint`), and `add_entry` refuses every configuration change
(`addEntry_configuration_of_stuckInJoint`).  `stuck_joint_leader_reachable` builds such a leader in a group of
three servers.
-/

namespace Scylla.Raft

open StateExcept

namespace Fsm

/-- A leader whose configuration in force is joint although it knows the entry of that configuration committed. -/
def StuckInJoint (s : Fsm) : Prop :=
  s.isLeader ∧ s.log.getConfiguration.isJoint ∧ s.log.lastConfIdx ≤ s.commitIdx

instance : DecidablePred StuckInJoint := fun s =>
  inferInstanceAs (Decidable (s.isLeader ∧ s.log.getConfiguration.isJoint ∧ s.log.lastConfIdx ≤ s.commitIdx))

/-- `become_leader` appends no `C_new`: a server that knows its joint configuration committed becomes a stuck
leader. -/
theorem becomeLeader_stuckInJoint {s s' : Fsm} {u : Unit} (hj : s.log.getConfiguration.isJoint)
    (hc : s.log.lastConfIdx ≤ s.commitIdx) (h : becomeLeader.run s = .ok (u, s')) : s'.StuckInJoint := by
  obtain ⟨hl, hci, hlog⟩ := becomeLeader_eq_ok h
  -- The dummy entry holds no configuration, so the configuration in force and its index stay.
  have hd : EntryData.dummy.config? = none := rfl
  refine ⟨hl, ?_, ?_⟩
  · rw [hlog, Log.getConfiguration_emplaceBack hd]
    exact hj
  · rw [hlog, Log.lastConfIdx_emplaceBack hd, hci]
    exact hc

/-- A stuck leader stays stuck through `maybe_commit`: the commit index can only move further past the joint
entry, and `C_new` is appended only when it crosses it. -/
theorem maybeCommit_stuckInJoint {s s' : Fsm} {u : Unit} (hs : s.StuckInJoint)
    (h : maybeCommit.run s = .ok (u, s')) : s'.StuckInJoint := by
  obtain ⟨hl, hj, hc⟩ := hs
  obtain ⟨ls, hls⟩ := isLeader_eq_true.1 hl
  have hcc : ¬ s.commitIdx < s.log.lastConfIdx := by omega
  simp [maybeCommit, maybeCommitAux, leaderState, hls, hcc] at h
  split at h
  · -- Nothing new is committed.
    obtain ⟨-, rfl⟩ := run_pure_eq_ok.1 h
    exact ⟨hl, hj, hc⟩
  · split at h
    · split at h
      · -- The commit index moves up; the log and the role stay.
        rw [run_set_eq_ok] at h
        subst h
        refine ⟨by simp [isLeader], hj, ?_⟩
        dsimp only
        omega
      · -- An entry of an older term is not committed by counting.
        obtain ⟨-, rfl⟩ := run_pure_eq_ok.1 h
        exact ⟨hl, hj, hc⟩
    · exact absurd h run_throw_ne_ok

/-- A stuck leader accepts no configuration change: `add_entry` throws, with `conf_change_in_progress` for every
valid configuration. -/
theorem addEntry_configuration_of_stuckInJoint {s s' : Fsm} {cfg : Configuration} {u : Unit}
    (hs : s.StuckInJoint) : (addEntry (.configuration cfg)).run s ≠ .ok (u, s') := by
  obtain ⟨hl, hj, -⟩ := hs
  obtain ⟨ls, hls⟩ := isLeader_eq_true.1 hl
  intro h
  simp [addEntry, checkIsLeader, leaderState, hls, isLeader] at h
  split at h
  · -- A leader stepping down takes no entries at all.
    simp at h
  · simp [hj] at h
    obtain ⟨_, -, h⟩ := except_bind_eq_ok.1 h
    exact except_throw_ne_ok h

end Fsm

/-- Three voters `1, 2, 3` start with fast bootstrap, which makes `1` the first candidate.  Leader `1` adds the
configuration `{2, 3}` at index 2, replicates it to both followers, commits it, and appends `C_new` at index 3,
which it sends to no one.  A read barrier sends `read_quorum` with commit index 2 to both followers.  Then `1`
goes silent; `2` times out, campaigns in term 2, gets the vote of `3`, and becomes a leader in the joint
configuration of index 2 with commit index 2. -/
theorem stuck_joint_leader_reachable :
    ∃ g, Reachable [1, 2, 3] { current := [⟨1, true⟩, ⟨2, true⟩, ⟨3, true⟩] }
        { appendRequestThreshold := 100000, maxLogSize := 1000000, enablePrevoting := false,
          fastBootstrapSeed := some 0 } 1000 g ∧
      ∃ srv ∈ g.servers, srv.fsm.StuckInJoint := by
  have hrun : ((Group.init [1, 2, 3] { current := [⟨1, true⟩, ⟨2, true⟩, ⟨3, true⟩] }
      { appendRequestThreshold := 100000, maxLogSize := 1000000, enablePrevoting := false,
        fastBootstrapSeed := some 0 } 1000 0).bind fun g => g.run
      -- Election of `1` and the replication of its dummy entry.
      ([.getOutput 1, .deliver 0 0, .getOutput 2, .deliver 2 0, .getOutput 1,
        .deliver 3 0, .getOutput 2, .deliver 4 0, .getOutput 3, .deliver 5 0, .deliver 6 0,
        -- The joint configuration, replicated and acknowledged by both followers.
        .addEntry 1 (.configuration { current := [⟨2, true⟩, ⟨3, true⟩] }), .getOutput 1,
        .deliver 7 0, .getOutput 2, .deliver 8 0, .getOutput 3, .deliver 9 0, .deliver 10 0,
        -- The read barrier tells `2` and `3` that index 2 is committed.
        .startReadBarrier 1 1, .getOutput 1, .deliver 12 0, .deliver 13 0] ++
      -- `2` sees no live leader and campaigns; `3` grants its vote.
      List.replicate 11 (.tick 2 (fun i => i != 1) 0) ++
      [.getOutput 2, .deliver 17 0, .getOutput 3, .deliver 19 0])).any
      fun g => g.servers.any fun srv => decide srv.fsm.StuckInJoint := by
    decide +kernel
  obtain ⟨g, hg, hstuck⟩ := (Option.any_eq_true _ _).1 hrun
  obtain ⟨g₀, h₀, hr⟩ := Option.bind_eq_some_iff.1 hg
  obtain ⟨srv, hmem, hsrv⟩ := List.any_eq_true.1 hstuck
  exact ⟨g, (Reachable.init 0 h₀).run hr, srv, hmem, of_decide_eq_true hsrv⟩

end Scylla.Raft
