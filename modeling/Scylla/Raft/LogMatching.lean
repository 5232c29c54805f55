import Scylla.Raft.Group

/-!
# Log matching across a snapshot transfer

`raft/log.hh` states the Log Matching Property (3.5) next to `log::match_term`: two entries of different logs with
the same index and term store the same command, and the logs are identical in all preceding entries.
`server_impl` relies on it to decide that a waiter's entry was committed when its term is the snapshot's.

`log::apply_snapshot`, called by `fsm::apply_snapshot` with no trailing entries for a snapshot from the leader,
drops the entries up to the snapshot's index and keeps those above it without comparing the term the log held at
that index with the snapshot's (`Log.applySnapshot_zero_termFor`).  A follower that holds a stale suffix from an
older leader then pairs the new snapshot with that suffix, and its log no longer matches the log it had, nor the
logs of the servers that hold the same suffix (`Log.applySnapshot_not_matching`).  `log_matching_violated` builds
such a follower in a group of three voters and a non-voter.
-/

namespace Scylla.Raft

namespace Log

/-- Log matching at index `i`: if two logs hold the same term at `i`, they agree on the term at every index up
to `i` that both know, and on every entry up to `i` that both keep. -/
def MatchingAt (l l' : Log) (i : Nat) : Prop :=
  (l.termFor i).isSome ∧ l.termFor i = l'.termFor i →
    ∀ j ≤ i, ((l.termFor j).isSome ∧ (l'.termFor j).isSome → l.termFor j = l'.termFor j) ∧
      ((l.getEntry j).isSome ∧ (l'.getEntry j).isSome → l.getEntry j = l'.getEntry j)

instance (l l' : Log) (i : Nat) : Decidable (l.MatchingAt l' i) :=
  inferInstanceAs (Decidable ((l.termFor i).isSome ∧ l.termFor i = l'.termFor i →
    ∀ j ≤ i, ((l.termFor j).isSome ∧ (l'.termFor j).isSome → l.termFor j = l'.termFor j) ∧
      ((l.getEntry j).isSome ∧ (l'.getEntry j).isSome → l.getEntry j = l'.getEntry j)))

/-- The Log Matching Property between two logs. -/
def Matching (l l' : Log) : Prop := ∀ i, l.MatchingAt l' i

/-- Two logs that hold the same term at `i` and different terms at some `j ≤ i` do not match. -/
theorem not_matching_of_termFor {l l' : Log} {i j t a b : Nat} (hi : l.termFor i = some t)
    (hi' : l'.termFor i = some t) (hj : l.termFor j = some a) (hj' : l'.termFor j = some b) (hab : a ≠ b)
    (hji : j ≤ i) : ¬ l.Matching l' := by
  intro hm
  have hagree := (hm i ⟨by rw [hi]; rfl, hi.trans hi'.symm⟩ j hji).1 ⟨by rw [hj]; rfl, by rw [hj']; rfl⟩
  rw [hj, hj', Option.some.injEq] at hagree
  exact hab hagree

/-- A follower that held term `a` at the snapshot's index, not the snapshot's term, and an entry above it: after
`apply_snapshot` with no trailing entries its log no longer matches the log it had. -/
theorem applySnapshot_not_matching {l l' : Log} {snp : SnapshotDescriptor} {tb released newFirst i a t : Nat}
    (ha : l.applySnapshot snp 0 tb = .ok (l', released, newFirst)) (hold : l.termFor snp.idx = some a)
    (hne : a ≠ snp.term) (hi : snp.idx < i) (ht : l.termFor i = some t) : ¬ l.Matching l' := by
  obtain ⟨hsnp, habove⟩ := applySnapshot_zero_termFor ha
  exact not_matching_of_termFor ht ((habove i hi).trans ht) hold hsnp hne hi.le

end Log

/-- Voters `1, 2, 3` and the non-voter `4` start with fast bootstrap, which makes `1` the first candidate.  Leader
`1` commits its dummy entry at index 1 on every server, then appends two commands at indexes 2 and 3 in term 1 and
replicates them to `4` only.  Then `1` goes silent: `2` times out and wins term 2 with the vote of `3`, appends
its dummy entry at index 2, commits it with `3`, and snapshots at index 2 with no trailing entries.  Its next
tick finds no entry before the index `4` needs and sends the snapshot of index 2 and term 2; `4` applies it and
keeps its entry of index 3 and term 1, which `1` also holds, after an index where `1` holds term 1. -/
theorem log_matching_violated :
    ∃ g, Reachable [1, 2, 3, 4] { current := [⟨1, true⟩, ⟨2, true⟩, ⟨3, true⟩, ⟨4, false⟩] }
        { appendRequestThreshold := 100000, maxLogSize := 1000000, enablePrevoting := false,
          fastBootstrapSeed := some 0 } 1000 g ∧
      ∃ a ∈ g.servers, ∃ b ∈ g.servers, ¬ a.fsm.log.Matching b.fsm.log := by
  have hrun : ((Group.init [1, 2, 3, 4] { current := [⟨1, true⟩, ⟨2, true⟩, ⟨3, true⟩, ⟨4, false⟩] }
      { appendRequestThreshold := 100000, maxLogSize := 1000000, enablePrevoting := false,
        fastBootstrapSeed := some 0 } 1000 0).bind fun g => g.run
      -- Election of `1`, and its dummy entry committed on every server.
      ([.getOutput 1, .deliver 0 0, .getOutput 2, .deliver 2 0, .getOutput 1,
        .deliver 3 0, .deliver 4 0, .deliver 5 0, .getOutput 2, .getOutput 3, .getOutput 4,
        .deliver 6 0, .deliver 7 0, .deliver 8 0, .getOutput 1,
        -- Two commands of term 1, delivered to the non-voter only.
        .addEntry 1 (.command []), .addEntry 1 (.command []), .getOutput 1, .deliver 11 0] ++
      -- `2` sees no live leader and campaigns; `3` grants its vote.
      List.replicate 11 (.tick 2 (fun i => i != 1) 0) ++
      [.getOutput 2, .deliver 13 0, .getOutput 3, .deliver 14 0, .getOutput 2,
       -- The dummy entry of term 2 commits with `3`, and `2` snapshots at index 2.
       .deliver 16 0, .getOutput 3, .deliver 18 0, .getOutput 2, .takeSnapshot 2 2 1 0 0,
       -- The snapshot goes to `4`.
       .tick 2 (fun i => i != 1) 0, .getOutput 2, .deliver 21 0])).any
      fun g => g.servers.any fun a => g.servers.any fun b => !decide (a.fsm.log.MatchingAt b.fsm.log 3) := by
    decide +kernel
  obtain ⟨g, hg, hbad⟩ := (Option.any_eq_true _ _).1 hrun
  obtain ⟨g₀, h₀, hr⟩ := Option.bind_eq_some_iff.1 hg
  obtain ⟨a, ha, hbad⟩ := List.any_eq_true.1 hbad
  obtain ⟨b, hb, hbad⟩ := List.any_eq_true.1 hbad
  have hnot : ¬ a.fsm.log.MatchingAt b.fsm.log 3 := by simpa using hbad
  exact ⟨g, (Reachable.init 0 h₀).run hr, a, ha, b, hb, fun hm => hnot (hm 3)⟩

end Scylla.Raft
