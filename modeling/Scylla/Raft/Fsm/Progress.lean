import Mathlib
import Scylla.Raft.Fsm.Frame
import Scylla.Raft.LogInvariant

/-!
# The leader's view of its followers

`raft/tracker.cc` and `raft/fsm.cc`: a leader keeps, for every member, the index of the next entry to send
(`next_idx`), the last index known to match (`match_idx`) and, in pipeline mode, the number of requests in
flight.  `FollowerProgress.Consistent last p` is what the comments of `fsm::append_entries_reply` rely on:
`match_idx < next_idx`, `match_idx ≤ last_idx()`, `next_idx ≤ last_idx() + 1`, and `in_flight ≤ max_in_flight`
in pipeline mode.

The fsm does not check the indexes of a reply.  A follower answers a request of the leader's term with
`accepted{last_new_idx}`, where `last_new_idx` is the request's `prev_log_idx` or the index of its last entry,
or with `rejected{prev_log_idx, …}`; answers to requests of older terms and pings carry `non_matching_idx = 0`.
A leader's log only grows during its term, so every reply in the leader's term names indexes of its log
(`AppendReply.Admissible`).  Under that contract every entry point of the fsm preserves `ProgressInv`
(`Op.exec_preserves`): the log stays well formed, and a leader's tracker consistent with it.  By induction over
a run, so does every state reached from the constructor (`leader_progress_invariant`).

The one step that needs the log to be well formed is the switch to snapshot transfer in `replicate_to`: the
entry before `next_idx` has no term only below the snapshot, so the new `next_idx = snapshot.idx + 1` stays
above `match_idx`.
-/

namespace Scylla.Raft

open StateExcept

namespace FollowerProgress

/-- The progress of a follower agrees with a leader's log whose last index is `last`. -/
structure Consistent (last : Nat) (p : FollowerProgress) : Prop where
  matchIdx_lt : p.matchIdx < p.nextIdx
  matchIdx_le : p.matchIdx ≤ last
  nextIdx_le : p.nextIdx ≤ last + 1
  inFlight_le : p.state = .pipeline → p.inFlight ≤ maxInFlight

namespace Consistent

variable {last : Nat} {p : FollowerProgress}

theorem mono (h : p.Consistent last) {last' : Nat} (hl : last ≤ last') : p.Consistent last' :=
  ⟨h.matchIdx_lt, h.matchIdx_le.trans hl, h.nextIdx_le.trans (by omega), h.inFlight_le⟩

/-- The fields other than the two indexes, the state and the requests in flight do not matter. -/
theorem congr (h : p.Consistent last) {q : FollowerProgress} (hm : q.matchIdx = p.matchIdx)
    (hn : q.nextIdx = p.nextIdx) (hs : q.state = p.state) (hi : q.inFlight = p.inFlight) : q.Consistent last :=
  ⟨hm ▸ hn ▸ h.matchIdx_lt, hm ▸ h.matchIdx_le, hn ▸ h.nextIdx_le, hs ▸ hi ▸ h.inFlight_le⟩

/-- `accepted` raises both indexes to those of an index of the log. -/
theorem accepted (h : p.Consistent last) {idx : Nat} (hidx : idx ≤ last) : (p.accepted idx).Consistent last := by
  have := h.matchIdx_lt
  have := h.nextIdx_le
  refine ⟨?_, ?_, ?_, h.inFlight_le⟩
  · show max idx p.matchIdx < max (idx + 1) p.nextIdx
    omega
  · show max idx p.matchIdx ≤ last
    exact max_le hidx h.matchIdx_le
  · show max (idx + 1) p.nextIdx ≤ last + 1
    omega

theorem becomePipeline (h : p.Consistent last) : p.becomePipeline.Consistent last := by
  unfold FollowerProgress.becomePipeline
  split
  · exact ⟨h.matchIdx_lt, h.matchIdx_le, h.nextIdx_le, fun _ => Nat.zero_le _⟩
  · exact h

theorem becomeProbe (h : p.Consistent last) : p.becomeProbe.Consistent last :=
  ⟨h.matchIdx_lt, h.matchIdx_le, h.nextIdx_le, fun hs => by cases hs⟩

end Consistent

/-- A reject that `is_stray_reject` lets through names indexes above `match_idx`. -/
theorem lt_of_isStrayReject_eq_false {p : FollowerProgress} {nonMatchingIdx lastIdx : Nat}
    (h : p.isStrayReject nonMatchingIdx lastIdx = false) :
    p.matchIdx < nonMatchingIdx ∧ p.matchIdx < lastIdx + 1 := by
  unfold isStrayReject at h
  split at h
  · cases h
  · split at h
    · cases h
    · omega

end FollowerProgress

namespace Tracker

open FollowerProgress

/-- Every progress entry of the tracker agrees with the log. -/
def Consistent (last : Nat) (t : Tracker) : Prop := ∀ p ∈ t.progress, p.Consistent last

namespace Consistent

variable {last : Nat} {t : Tracker}

theorem mono (h : t.Consistent last) {last' : Nat} (hl : last ≤ last') : t.Consistent last' :=
  fun p hp => (h p hp).mono hl

theorem find? (h : t.Consistent last) {id : Nat} {p : FollowerProgress} (hp : t.find? id = some p) :
    p.Consistent last :=
  h p (List.mem_of_find?_eq_some hp)

theorem update (h : t.Consistent last) {p : FollowerProgress} (hp : p.Consistent last) :
    (t.update p).Consistent last := by
  intro q hq
  obtain ⟨q₀, hq₀, rfl⟩ := List.mem_map.1 hq
  split
  · exact hp
  · exact h q₀ hq₀

/-- The entries of one follower, written twice. -/
theorem of_update (h : (t.update p).Consistent last) {q : FollowerProgress} (hid : q.id = p.id)
    (hq : q.Consistent last) : (t.update q).Consistent last := by
  intro r hr
  obtain ⟨r₀, hr₀, rfl⟩ := List.mem_map.1 hr
  by_cases hr₀q : r₀.id = q.id
  · simpa [hr₀q] using hq
  · have hr₀p : r₀.id ≠ p.id := hid ▸ hr₀q
    have hmem : r₀ ∈ (t.update p).progress :=
      List.mem_map.2 ⟨r₀, hr₀, by simp [hr₀p]⟩
    simpa [hr₀q] using h r₀ hmem

end Consistent

theorem consistent_empty (last : Nat) : Tracker.empty.Consistent last := fun _ hp => by cases hp

/-- One pass of `set_configuration` keeps the entries it finds and starts the others at `nextIdx`. -/
theorem consistent_emplaceSimpleConfig (cfg : Configuration) {last nextIdx : Nat} {old : List FollowerProgress}
    (hold : ∀ p ∈ old, p.Consistent last) (hpos : 0 < nextIdx) (hle : nextIdx ≤ last + 1) :
    ∀ (ss : List ConfigMember) (ps : List FollowerProgress) (vs : List Nat), (∀ p ∈ ps, p.Consistent last) →
      ∀ p ∈ (emplaceSimpleConfig cfg nextIdx old ss (ps, vs)).1, p.Consistent last
  | [], ps, vs, hps => hps
  | s :: ss, ps, vs, hps => by
    unfold emplaceSimpleConfig
    dsimp only
    split
    · exact consistent_emplaceSimpleConfig cfg hold hpos hle ss ps _ hps
    · refine consistent_emplaceSimpleConfig cfg hold hpos hle ss _ _ ?_
      intro p hp
      rcases List.mem_append.1 hp with hp | hp
      · exact hps p hp
      · rw [List.mem_singleton] at hp
        subst hp
        -- The entry carried over from the old tracker, or a new one at `nextIdx`.
        split
        · rename_i q hq
          exact (hold q (List.mem_of_find?_eq_some hq)).congr rfl rfl rfl rfl
        · exact ⟨hpos, Nat.zero_le _, hle, fun hs => by cases hs⟩

theorem Consistent.setConfiguration {last nextIdx : Nat} {t : Tracker} (h : t.Consistent last) (cfg : Configuration)
    (hpos : 0 < nextIdx) (hle : nextIdx ≤ last + 1) : (t.setConfiguration cfg nextIdx).Consistent last := by
  have hcur := consistent_emplaceSimpleConfig cfg h hpos hle cfg.current [] [] (fun _ hp => by cases hp)
  unfold Tracker.setConfiguration
  dsimp only
  split
  · exact consistent_emplaceSimpleConfig cfg h hpos hle cfg.previous _ [] hcur
  · exact hcur

end Tracker

end Scylla.Raft

namespace Scylla.Raft

open StateExcept FollowerProgress

namespace Fsm

/-! ### The invariant -/

/-- What every state of an admissible run satisfies: the log is well formed, and a leader's tracker agrees with
it. -/
structure ProgressInv (s : Fsm) : Prop where
  wellFormed : s.log.WellFormed
  tracker : ∀ ls, s.state = .leader ls → ls.tracker.Consistent s.log.lastIdx

namespace ProgressInv

variable {s s' : Fsm}

/-- The invariant looks at the log and the role only. -/
theorem of_eq (h : ProgressInv s) (hl : s'.log = s.log) (hs : s'.state = s.state) : ProgressInv s' :=
  ⟨hl ▸ h.wellFormed, fun ls hls => hl ▸ h.tracker ls (hs ▸ hls)⟩

theorem of_not_leader (hw : s'.log.WellFormed) (hs : ∀ ls, s'.state ≠ .leader ls) : ProgressInv s' :=
  ⟨hw, fun ls hls => absurd hls (hs ls)⟩

/-- A leader's state written back with a tracker that agrees with the log. -/
theorem setLeader (h : ProgressInv s) {ls : LeaderState} (hc : ls.tracker.Consistent s.log.lastIdx) :
    ProgressInv { s with state := .leader ls } :=
  ⟨h.wellFormed, fun _ hls => by cases hls; exact hc⟩

end ProgressInv

/-- A step of the leader's side that leaves the log alone and keeps the invariant. -/
structure LeaderStep (s s' : Fsm) : Prop where
  log_eq : s'.log = s.log
  inv : ProgressInv s → ProgressInv s'

namespace LeaderStep

instance : Std.Refl LeaderStep := ⟨fun _ => ⟨rfl, id⟩⟩

instance : IsTrans Fsm LeaderStep :=
  ⟨fun _ _ _ h₁ h₂ => ⟨h₂.log_eq.trans h₁.log_eq, h₂.inv ∘ h₁.inv⟩⟩

theorem of_eq {s s' : Fsm} (hl : s'.log = s.log) (hs : s'.state = s.state) : LeaderStep s s' :=
  ⟨hl, fun h => h.of_eq hl hs⟩

theorem of_not_leader {s s' : Fsm} (hl : s'.log = s.log) (hs : ∀ ls, s'.state ≠ .leader ls) : LeaderStep s s' :=
  ⟨hl, fun h => .of_not_leader (hl ▸ h.wellFormed) hs⟩

theorem preserved {s s' : Fsm} (h : LeaderStep s s') : Preserved ProgressInv s s' := h.inv

/-- A change of fields other than the log and the role. -/
theorem preserved_of_eq {s s' : Fsm} (hl : s'.log = s.log) (hs : s'.state = s.state) : Preserved ProgressInv s s' :=
  (of_eq hl hs).inv

end LeaderStep

/-! ### Reading and writing the leader's state -/

theorem leaderState_eq_ok {s s' : Fsm} {ls : LeaderState} :
    leaderState.run s = .ok (ls, s') ↔ s.state = .leader ls ∧ s' = s := by
  unfold leaderState
  rw [run_bind_eq_ok]
  constructor
  · rintro ⟨a, s₁, hg, hm⟩
    obtain ⟨rfl, rfl⟩ := run_get_eq_ok.1 hg
    split at hm
    · obtain ⟨rfl, rfl⟩ := run_pure_eq_ok.1 hm
      exact ⟨‹_›, rfl⟩
    · exact absurd hm run_throw_ne_ok
  · rintro ⟨hls, rfl⟩
    refine ⟨_, _, run_get_eq_ok.2 ⟨rfl, rfl⟩, ?_⟩
    rw [hls]
    exact run_pure_eq_ok.2 ⟨rfl, rfl⟩

/-- Code that reads the leader's state may assume it is the state's. -/
theorem keeps_leaderState_bind {β : Type} {R : Fsm → Fsm → Prop} {f : LeaderState → FsmM β}
    (hf : ∀ s ls, s.state = .leader ls → KeepsFrom R s (f ls)) : Keeps R (leaderState >>= f) := by
  intro s b s' h
  obtain ⟨ls, s₁, hl, hfs⟩ := run_bind_eq_ok.1 h
  obtain ⟨hls, rfl⟩ := leaderState_eq_ok.1 hl
  exact hf _ ls hls hfs

theorem keepsFrom_leaderState_bind {β : Type} {R : Fsm → Fsm → Prop} {s : Fsm} {f : LeaderState → FsmM β}
    (hf : ∀ ls, s.state = .leader ls → KeepsFrom R s (f ls)) : KeepsFrom R s (leaderState >>= f) := by
  intro b s' h
  obtain ⟨ls, s₁, hl, hfs⟩ := run_bind_eq_ok.1 h
  obtain ⟨hls, rfl⟩ := leaderState_eq_ok.1 hl
  exact hf ls hls hfs

theorem setLeaderState_eq_ok {s s' : Fsm} {ls : LeaderState} {u : PUnit} :
    (setLeaderState ls).run s = .ok (u, s') ↔ s' = { s with state := .leader ls } :=
  run_modify_eq_ok

/-- Writing back a leader's state whose tracker agrees with the log whenever the state written over satisfies the
invariant. -/
theorem keepsFrom_setLeaderState {s : Fsm} {ls : LeaderState}
    (hc : ProgressInv s → ls.tracker.Consistent s.log.lastIdx) : KeepsFrom LeaderStep s (setLeaderState ls) := by
  intro u s' h
  rw [setLeaderState_eq_ok.1 h]
  exact ⟨rfl, fun hi => hi.setLeader (hc hi)⟩

/-- A change of fields other than the log and the role. -/
theorem keeps_modify_of_eq {f : Fsm → Fsm} (hl : ∀ s, (f s).log = s.log) (hs : ∀ s, (f s).state = s.state) :
    Keeps LeaderStep (modify f : FsmM PUnit) :=
  keeps_modify fun s => LeaderStep.of_eq (hl s) (hs s)


theorem sendTo_step (dst : Nat) (m : RpcMessage) : Keeps LeaderStep (sendTo dst m) :=
  keeps_modify_of_eq (fun _ => by rfl) (fun _ => by rfl)

theorem leaderState_step : Keeps LeaderStep leaderState := leaderState_readOnly.of_eq

theorem checkIsLeader_step : Keeps LeaderStep checkIsLeader := checkIsLeader_readOnly.of_eq

/-- Writing back the leader's state read, with the tracker as it was. -/
theorem keepsFrom_setLeaderState_of_tracker {s : Fsm} {ls ls' : LeaderState} (hls : s.state = .leader ls)
    (ht : ls'.tracker = ls.tracker) : KeepsFrom LeaderStep s (setLeaderState ls') :=
  keepsFrom_setLeaderState fun hi => ht ▸ hi.tracker ls hls

theorem updateCurrentTerm_step (t : Nat) : Keeps LeaderStep (updateCurrentTerm t) := by
  apply keeps_get_bind
  intro s
  split
  · exact keepsFrom_set (LeaderStep.of_eq rfl rfl)
  · exact keeps_throw _ s

theorem resetElectionTimeout_step (rnd : Nat) : Keeps LeaderStep (resetElectionTimeout rnd) :=
  keeps_modify_of_eq (fun _ => by rfl) (fun _ => by rfl)

theorem advanceCommitIdx_step (leaderCommitIdx : Nat) : Keeps LeaderStep (advanceCommitIdx leaderCommitIdx) := by
  apply keeps_modify
  intro s
  dsimp only
  split
  · exact LeaderStep.of_eq rfl rfl
  · exact refl_of LeaderStep s

/-- A follower has no tracker. -/
theorem becomeFollower_step (leader : Nat) : Keeps LeaderStep (becomeFollower leader) := by
  apply keeps_get_bind
  intro s
  dsimp only
  split
  · exact keeps_throw_bind _ _ s
  · exact keepsFrom_set (LeaderStep.of_not_leader (by split_ifs <;> rfl) fun ls => by split_ifs <;> simp)

/-! ### `replicate_to` -/

/-- A request's entries end at most one past the log, and never before `next_idx`. -/
theorem collectEntries_bounds (l : Log) (threshold : Nat) (probe : Bool) :
    ∀ (fuel nextIdx size : Nat) {es : List LogEntry} {n : Nat},
      collectEntries l threshold probe fuel nextIdx size = .ok (es, n) → nextIdx ≤ n ∧ n ≤ max nextIdx (l.lastIdx + 1)
  | 0, nextIdx, size, es, n, h => by
    cases h
    omega
  | fuel + 1, nextIdx, size, es, n, h => by
    unfold collectEntries at h
    split at h
    · rename_i hin
      split at h
      · cases h
      · split at h
        · cases h
          omega
        · obtain ⟨⟨es', n'⟩, hrec, hret⟩ := except_bind_eq_ok.1 h
          cases hret
          have := collectEntries_bounds l threshold probe fuel (nextIdx + 1) _ hrec
          omega
    · cases h
      omega

/-- The progress `replicate_to` leaves for a follower agrees with a well-formed log: a follower that lags behind
the snapshot restarts right after it, and a pipelined request moves `next_idx` at most one past the log. -/
theorem replicateToLoop_consistent {s : Fsm} (hw : s.log.WellFormed) :
    ∀ (fuel : Nat) (p : FollowerProgress) (allowEmpty : Bool) (out : List (Nat × RpcMessage))
      {p' : FollowerProgress} {msgs : List (Nat × RpcMessage)}, p.Consistent s.log.lastIdx →
      replicateToLoop s fuel p allowEmpty out = .ok (p', msgs) → p'.Consistent s.log.lastIdx
  | 0, p, _, _, _, _, hp, h => by
    cases h
    exact hp
  | fuel + 1, p, allowEmpty, out, p', msgs, hp, h => by
    have := hp.matchIdx_lt
    have := hp.nextIdx_le
    unfold replicateToLoop at h
    split at h
    · cases h
      exact hp
    split at h
    · cases h
      exact hp
    rename_i hsend _
    dsimp only at h
    rcases hterm : s.log.termFor (p.nextIdx - 1) with _ | prevTerm
    · -- The entry before `next_idx` has no term: it lies below the snapshot.
      rw [hterm] at h
      cases h
      have hnot := (hw.termFor_isSome_iff (p.nextIdx - 1)).not.1 (by simp [hterm])
      have := hw.firstIdx_le
      have := hw.snapshot_le
      refine ⟨?_, ?_, ?_, fun hs => by cases hs⟩
      · show p.matchIdx < s.log.snapshot.idx + 1
        omega
      · exact hp.matchIdx_le
      · show s.log.snapshot.idx + 1 ≤ s.log.lastIdx + 1
        omega
    · rw [hterm] at h
      dsimp only at h
      -- The probe flag does not touch the invariant.
      have hflag : ∀ q : FollowerProgress, q.Consistent s.log.lastIdx →
          (if (q.state == .probe) = true then { q with probeSent := true } else q).Consistent s.log.lastIdx := by
        intro q hq
        split
        · exact hq.congr rfl rfl rfl rfl
        · exact hq
      split at h
      · -- Past the end of the log: an empty request.
        obtain ⟨⟨es, q⟩, hq, hrec⟩ := except_bind_eq_ok.1 h
        obtain ⟨-, rfl⟩ := Prod.mk.inj (Except.ok.inj hq)
        exact replicateToLoop_consistent hw fuel _ false _ (hflag p hp) hrec
      · obtain ⟨⟨es, n⟩, hc, h₂⟩ := except_bind_eq_ok.1 h
        obtain ⟨⟨es', q⟩, hq, hrec⟩ := except_bind_eq_ok.1 h₂
        obtain ⟨-, rfl⟩ := Prod.mk.inj (Except.ok.inj hq)
        refine replicateToLoop_consistent hw fuel _ false _ (hflag _ ?_) hrec
        have hn := collectEntries_bounds _ _ _ _ _ _ hc
        split
        · -- Pipelining moves `next_idx` on and counts one more request in flight.
          rename_i hpipe
          have hst : p.state = .pipeline := by simpa using hpipe
          have hin : p.inFlight < maxInFlight := by
            simpa [canSendTo, hst] using hsend
          refine ⟨?_, hp.matchIdx_le, ?_, fun _ => ?_⟩
          · show p.matchIdx < n
            omega
          · show n ≤ s.log.lastIdx + 1
            omega
          · show p.inFlight + 1 ≤ maxInFlight
            omega
        · exact hp


/-- `replicate_to` writes back the follower's progress after the loop and leaves the log alone. -/
theorem replicateTo_step (id : Nat) (allowEmpty : Bool) : Keeps LeaderStep (replicateTo id allowEmpty) := by
  unfold replicateTo
  refine keeps_leaderState_bind fun s ls hls => ?_
  split
  · rename_i p hp
    refine keepsFrom_get_bind (KeepsFrom.bind (keeps_lift _ s) fun x s₁ hx => ?_)
    obtain ⟨hloop, rfl⟩ := run_lift_eq_ok.1 hx
    obtain ⟨p', msgs⟩ := x
    refine KeepsFrom.bind (keepsFrom_setLeaderState fun hi => ?_) fun _ s₂ h₂ =>
      keeps_modify_of_eq (fun _ => by rfl) (fun _ => by rfl) s₂
    have hc := hi.tracker ls hls
    exact hc.update (replicateToLoop_consistent hi.wellFormed _ p allowEmpty [] (hc.find? hp) hloop)
  · exact keeps_throw _ s


theorem replicateLoop_step : ∀ ps, Keeps LeaderStep (replicateLoop ps)
  | [] => keeps_pure _
  | p :: ps => by
    unfold replicateLoop
    refine keeps_get_bind fun s => ?_
    dsimp only
    split
    · exact (Keeps.bind (replicateTo_step _ _) fun _ => replicateLoop_step ps) s
    · exact replicateLoop_step ps s

theorem replicate_step : Keeps LeaderStep replicate :=
  Keeps.bind leaderState_step fun _ => replicateLoop_step _

/-! ### Leadership transfer and read barriers -/

theorem sendTimeoutNow_step (id : Nat) : Keeps LeaderStep (sendTimeoutNow id) := by
  unfold sendTimeoutNow
  refine keeps_get_bind fun s => (Keeps.bind (sendTo_step _ _) fun _ => keeps_leaderState_bind fun s₁ ls hls =>
    KeepsFrom.bind (keepsFrom_setLeaderState_of_tracker hls (by rfl)) fun _ s₂ _ => ?_) s
  split
  · split
    · exact becomeFollower_step 0 s₂
    · exact keeps_pure _ s₂
  · exact becomeFollower_step 0 s₂

theorem transferLeadership_step (timeout : Nat) : Keeps LeaderStep (transferLeadership timeout) := by
  unfold transferLeadership
  dsimp only
  refine Keeps.bind checkIsLeader_step fun _ => keeps_leaderState_bind fun s ls hls => keepsFrom_get_bind ?_
  split
  · exact keeps_throw_bind _ _ s
  · refine KeepsFrom.bind (keepsFrom_setLeaderState_of_tracker hls (by rfl)) fun _ s₁ _ => ?_
    split
    · exact sendTimeoutNow_step _ s₁
    · exact keeps_pure _ s₁

/-- Acknowledging a read changes the follower's commit index and read id, which the invariant does not look at. -/
theorem handleReadQuorumReply_step (src : Nat) (reply : ReadQuorumReply) :
    Keeps LeaderStep (handleReadQuorumReply src reply) := by
  unfold handleReadQuorumReply
  dsimp only
  refine keeps_leaderState_bind fun s ls hls => ?_
  split
  · rename_i p hp
    refine KeepsFrom.bind (keepsFrom_setLeaderState fun hi => ?_) fun _ s₁ h₁ => ?_
    · have hc := hi.tracker ls hls
      exact hc.update ((hc.find? hp).congr rfl rfl rfl rfl)
    -- The second write keeps the tracker of the first.
    rw [setLeaderState_eq_ok.1 h₁]
    split
    · exact keeps_pure _ _
    · split
      · exact keeps_pure _ _
      · exact KeepsFrom.bind (keepsFrom_setLeaderState_of_tracker rfl (by rfl)) fun _ s₂ _ =>
          keeps_modify_of_eq (fun _ => by rfl) (fun _ => by rfl) s₂
  · exact keeps_pure _ s

theorem broadcastReadQuorumLoop_step (id : Nat) : ∀ ps, Keeps LeaderStep (broadcastReadQuorumLoop id ps)
  | [] => keeps_pure _
  | p :: ps => by
    unfold broadcastReadQuorumLoop
    dsimp only
    split
    · refine keeps_get_bind fun s => (?_ : Keeps LeaderStep _) s
      split
      · exact Keeps.bind (handleReadQuorumReply_step _ _) fun _ => broadcastReadQuorumLoop_step id ps
      · exact Keeps.bind (sendTo_step _ _) fun _ => broadcastReadQuorumLoop_step id ps
    · exact broadcastReadQuorumLoop_step id ps

theorem broadcastReadQuorum_step (id : Nat) : Keeps LeaderStep (broadcastReadQuorum id) :=
  Keeps.bind leaderState_step fun _ => broadcastReadQuorumLoop_step id _

theorem startReadBarrier_step (requester : Nat) : Keeps LeaderStep (startReadBarrier requester) := by
  unfold startReadBarrier
  dsimp only
  refine Keeps.bind checkIsLeader_step fun _ => Keeps.bind leaderState_step fun _ => Keeps.get_bind fun s => ?_
  -- `next_read_id` and the answer
  have hnext : ∀ c : Nat, Keeps LeaderStep (do
      let ls ← leaderState
      setLeaderState { ls with lastReadId := ls.lastReadId + 1, lastReadIdChanged := true }
      pure (some (ls.lastReadId + 1, c)) : FsmM (Option (Nat × Nat))) := fun c =>
    keeps_leaderState_bind fun _ ls hls => KeepsFrom.bind (keepsFrom_setLeaderState_of_tracker hls (by rfl))
      fun _ s₂ _ => keeps_pure _ s₂
  split
  · exact keeps_throw_bind _ _
  · split
    · split
      · exact keeps_pure _
      · split
        · split
          · exact Keeps.bind (replicateTo_step _ _) fun _ => hnext _
          · exact hnext _
        · exact hnext _
    · exact keeps_throw _


/-! ### Appending to the log -/

/-- A handler that keeps the log keeps the invariant. -/
theorem preserves_of_step {α : Type} {x : FsmM α} (h : Keeps LeaderStep x) : Keeps (Preserved ProgressInv) x :=
  h.mono fun _ _ h => h.inv

/-- An entry at the next index: the log stays well formed and only grows. -/
theorem emplaceBack_preserves {s : Fsm} {e : LogEntry} (he : e.idx = s.log.nextIdx) :
    Preserved ProgressInv s { s with log := s.log.emplaceBack e } := fun hi =>
  ⟨hi.wellFormed.emplaceBack he, fun ls hls => (hi.tracker ls hls).mono
    (by rw [Log.emplaceBack_lastIdx _ _ hi.wellFormed.consecutive.firstIdx_pos]; exact Nat.le_succ _)⟩

/-- A leader that appended starts new members at the last index. -/
theorem setConfiguration_consistent {s : Fsm} {ls : LeaderState} (hi : ProgressInv s) (hls : s.state = .leader ls)
    (hpos : 0 < s.log.lastIdx) :
    (ls.tracker.setConfiguration s.log.getConfiguration s.log.lastIdx).Consistent s.log.lastIdx :=
  (hi.tracker ls hls).setConfiguration _ hpos (Nat.le_succ _)

/-- `tracker.set_configuration(get_configuration(), last_idx())`, as a leader runs it after an append: new members
start at the last index, which is past the first. -/
theorem setConfiguration_step {s : Fsm} (hpos : 0 < s.log.lastIdx) : KeepsFrom LeaderStep s (do
    let s ← get
    let ls ← leaderState
    setLeaderState { ls with tracker := ls.tracker.setConfiguration s.log.getConfiguration s.log.lastIdx } :
      FsmM Unit) :=
  keepsFrom_get_bind (keepsFrom_leaderState_bind fun _ hls => keepsFrom_setLeaderState fun hi =>
    setConfiguration_consistent hi hls hpos)

/-- After an entry at the next index the log is not empty. -/
theorem lastIdx_emplaceBack_pos {s : Fsm} (hi : ProgressInv s) (e : LogEntry) : 0 < (s.log.emplaceBack e).lastIdx := by
  rw [Log.emplaceBack_lastIdx _ _ hi.wellFormed.consecutive.firstIdx_pos]
  exact Nat.succ_pos _

theorem addEntry_preserves (data : EntryData) : Keeps (Preserved ProgressInv) (addEntry data) := by
  unfold addEntry
  dsimp only
  refine Keeps.bind (preserves_of_step checkIsLeader_step) fun _ =>
    Keeps.bind (preserves_of_step leaderState_step) fun ls => ?_
  split
  · exact keeps_throw_bind _ _
  · refine keeps_get_bind fun s => KeepsFrom.of_inv fun hi => ?_
    -- Whatever the entry holds, it goes at the next index; a configuration also resets the tracker.
    have hconf : ∀ (e : LogEntry) (isConf : Bool), KeepsFrom (Preserved ProgressInv) { s with log := s.log.emplaceBack e }
        (if isConf = true then do
          let s ← get
          let ls ← leaderState
          setLeaderState { ls with tracker := ls.tracker.setConfiguration s.log.getConfiguration s.log.lastIdx }
        else pure ()) := by
      intro e isConf
      split
      · exact fun _ _ h => (setConfiguration_step (lastIdx_emplaceBack_pos hi e) h).inv
      · exact keeps_pure _ _
    split
    · refine KeepsFrom.bind_of_eq (keeps_lift _) fun _ => ?_
      split
      · exact keeps_throw_bind _ _ s
      · exact KeepsFrom.bind_of_eq (keeps_lift _) fun _ => KeepsFrom.bind_of_eq (keeps_pure _) fun _ =>
          keepsFrom_set_bind (emplaceBack_preserves rfl) (hconf _ _)
    · exact KeepsFrom.bind_of_eq (keeps_pure _) fun _ => keepsFrom_set_bind (emplaceBack_preserves rfl) (hconf _ _)


/-- The re-broadcast of a pending read barrier that ends `maybe_commit` after a configuration change. -/
private theorem rebroadcast_step : Keeps LeaderStep (do
    match (← get).state with
    | .leader ls => if ls.lastReadId ≠ ls.maxReadIdWithQuorum then broadcastReadQuorum ls.lastReadId
    | _ => pure () : FsmM Unit) := by
  refine keeps_get_bind fun s => (?_ : Keeps LeaderStep _) s
  split
  · split
    · exact broadcastReadQuorum_step _
    · exact keeps_pure _
  · exact keeps_pure _

theorem maybeCommitAux_preserves : ∀ fuel, Keeps (Preserved ProgressInv) (maybeCommitAux fuel)
  | 0 => keeps_pure _
  | fuel + 1 => by
    rw [maybeCommitAux]
    dsimp only
    have hre := preserves_of_step rebroadcast_step
    refine Keeps.bind (preserves_of_step leaderState_step) fun ls => keeps_get_bind fun s => ?_
    split
    · exact keeps_pure _ s
    · split
      · split
        · exact keeps_pure _ s
        · -- The commit index moves up; the invariant does not look at it.
          refine keepsFrom_set_bind (LeaderStep.preserved_of_eq (by rfl) (by rfl))
            ((?_ : Keeps (Preserved ProgressInv) _) _)
          split
          · split
            · -- The joint configuration is committed: `C_new` goes at the next index, and resets the tracker.
              refine keeps_get_bind fun s => KeepsFrom.of_inv fun hi => keepsFrom_set_bind (emplaceBack_preserves rfl) ?_
              refine keepsFrom_get_bind (keepsFrom_leaderState_bind fun ls' hls => ?_)
              refine KeepsFrom.bind ((keepsFrom_setLeaderState fun hi' =>
                setConfiguration_consistent hi' hls (lastIdx_emplaceBack_pos hi _)).mono fun _ h => h.inv)
                fun _ s₁ _ => (Keeps.bind (maybeCommitAux_preserves fuel) fun _ => hre) s₁
            · refine Keeps.bind (preserves_of_step leaderState_step) fun ls => ?_
              split
              · split
                · exact Keeps.bind (preserves_of_step (transferLeadership_step 0)) fun _ => hre
                · exact hre
              · exact Keeps.bind (preserves_of_step (transferLeadership_step 0)) fun _ => hre
          · exact keeps_pure _
      · exact keeps_throw _ s

theorem maybeCommit_preserves : Keeps (Preserved ProgressInv) maybeCommit := maybeCommitAux_preserves 2

/-- The leader counts the entries it persisted as replicated on itself. -/
theorem advanceStableIdx_preserves (idx : Nat) : Keeps (Preserved ProgressInv) (advanceStableIdx idx) := by
  unfold advanceStableIdx
  refine keeps_get_bind fun s => ?_
  refine KeepsFrom.bind (keeps_lift _ s) fun l s' hl => ?_
  obtain ⟨hst, rfl⟩ := run_lift_eq_ok.1 hl
  -- Only the stable index of the log moves, to an index of the log.
  have hwf := fun hi : ProgressInv s => hi.wellFormed.stableTo hst
  obtain ⟨rfl, hidx⟩ := Log.stableTo_eq_ok hst
  refine keepsFrom_set_bind (fun hi => ⟨hwf hi, hi.tracker⟩) (keepsFrom_get_bind ?_)
  split
  · refine keepsFrom_leaderState_bind fun ls hls => ?_
    split
    · rename_i lp hlp
      refine KeepsFrom.bind ((keepsFrom_setLeaderState fun hi => ?_).mono fun _ h => h.inv)
        fun _ s₁ _ => maybeCommit_preserves s₁
      have hc := hi.tracker ls hls
      exact hc.update ((hc.find? hlp).accepted hidx)
    · exact keeps_pure _ _
  · exact keeps_pure _ _


/-! ### Replies to appends -/

/-- The progress of a follower after its request in flight is counted off. -/
theorem consistent_countOff {last : Nat} {p : FollowerProgress} (h : p.Consistent last) :
    (if (p.state == .pipeline) = true ∧ p.inFlight > 0 then { p with inFlight := p.inFlight - 1 } else p).Consistent
      last := by
  split
  · exact ⟨h.matchIdx_lt, h.matchIdx_le, h.nextIdx_le, fun hs => Nat.sub_le_of_le_add (by have := h.inFlight_le hs; omega)⟩
  · exact h

/-- A reject that is not stray moves `next_idx` back to an index above `match_idx` and in the log. -/
theorem consistent_rejected {last nonMatchingIdx lastIdx : Nat} {p : FollowerProgress} (h : p.Consistent last)
    (hstray : p.isStrayReject nonMatchingIdx lastIdx = false) (hnm : nonMatchingIdx ≤ last) :
    ({ p with nextIdx := min nonMatchingIdx (lastIdx + 1) }.becomeProbe).Consistent last := by
  obtain ⟨h₁, h₂⟩ := lt_of_isStrayReject_eq_false hstray
  refine ⟨?_, h.matchIdx_le, ?_, fun hs => by cases hs⟩
  · show p.matchIdx < min nonMatchingIdx (lastIdx + 1)
    omega
  · show min nonMatchingIdx (lastIdx + 1) ≤ last + 1
    omega


end Fsm

/-- What the network guarantees of a reply that a leader gets in its term: it answers a request of that leader,
so the index it accepts, or the `prev_log_idx` it rejects, is an index of the leader's log, which only grows
during the term.  The pings of followers that look for a leader reject index 0. -/
def AppendReply.Admissible (last : Nat) (r : AppendReply) : Prop :=
  match r.result with
  | .accepted lastNewIdx => lastNewIdx ≤ last
  | .rejected nonMatchingIdx _ => nonMatchingIdx ≤ last

namespace Fsm

theorem appendEntriesReply_preserves (src : Nat) (reply : AppendReply) {s : Fsm}
    (hr : reply.Admissible s.log.lastIdx) : KeepsFrom (Preserved ProgressInv) s (appendEntriesReply src reply) := by
  unfold appendEntriesReply
  refine KeepsFrom.of_inv fun hi => keepsFrom_leaderState_bind fun ls hls => ?_
  have hc := hi.tracker ls hls
  -- The closing `replicate_to`, if the follower is still in the configuration.
  have hlast : Keeps (Preserved ProgressInv)
      (do if ((← leaderState).tracker.find? src).isSome then replicateTo src false : FsmM Unit) :=
    preserves_of_step (Keeps.bind leaderState_step fun _ => Keeps.ite (replicateTo_step _ _) (keeps_pure _))
  -- `maybe_commit`, after which only a leader goes on.
  have hcommit : Keeps (Preserved ProgressInv)
      (do maybeCommit; if !(← get).isLeader then return else (do
        if ((← leaderState).tracker.find? src).isSome then replicateTo src false : FsmM Unit)) :=
    Keeps.bind maybeCommit_preserves fun _ => Keeps.get_bind fun _ => Keeps.ite (keeps_pure _) hlast
  split
  · rename_i p hp
    have hq := consistent_countOff (hc.find? hp)
    dsimp only
    generalize (if (p.state == .pipeline) = true ∧ p.inFlight > 0 then { p with inFlight := p.inFlight - 1 } else p) =
      q at hq ⊢
    split
    · -- A follower in snapshot transfer ignores the reply.
      exact KeepsFrom.bind ((keepsFrom_setLeaderState fun _ => hc.update hq).mono fun _ h => h.inv)
        fun _ s₁ _ => keeps_pure _ s₁
    have hq₂ := hq.congr (q := { q with commitIdx := max q.commitIdx reply.commitIdx }) rfl rfl rfl rfl
    split
    · -- Accepted: both indexes move up to the accepted one, which is in the log.
      rename_i lastNewIdx hres
      have hle : lastNewIdx ≤ s.log.lastIdx := by simpa [AppendReply.Admissible, hres] using hr
      refine KeepsFrom.bind ((keepsFrom_setLeaderState fun _ =>
        hc.update (hq₂.accepted hle).becomePipeline).mono fun _ h => h.inv) fun _ s₁ _ => ?_
      refine (Keeps.get_bind fun _ => Keeps.ite ?_ hcommit) s₁
      exact Keeps.bind (preserves_of_step (sendTimeoutNow_step _)) fun _ =>
        Keeps.get_bind fun _ => Keeps.ite (keeps_pure _) hcommit
    · -- Rejected: a reject that is not stray moves `next_idx` back, above `match_idx`.
      rename_i nonMatchingIdx lastIdx hres
      have hle : nonMatchingIdx ≤ s.log.lastIdx := by simpa [AppendReply.Admissible, hres] using hr
      refine KeepsFrom.bind ((keepsFrom_setLeaderState fun _ => hc.update hq₂).mono fun _ h => h.inv)
        fun _ s₁ h₁ => ?_
      rw [setLeaderState_eq_ok.1 h₁]
      split
      · exact (Keeps.bind (preserves_of_step (replicateTo_step _ _)) fun _ => keeps_pure _) _
      split
      · exact keeps_pure _ _
      rename_i hstray
      split
      · exact keeps_throw_bind _ _ _
      · refine KeepsFrom.bind ((keepsFrom_setLeaderState fun _ => ?_).mono fun _ h => h.inv) fun _ s₂ _ => hlast s₂
        exact hc.update (consistent_rejected hq₂ (by simpa using hstray) hle)
  · exact keeps_pure _ s


theorem installSnapshotReply_step (src : Nat) (reply : SnapshotReply) :
    Keeps LeaderStep (installSnapshotReply src reply) := by
  unfold installSnapshotReply
  refine keeps_leaderState_bind fun s ls hls => ?_
  split
  · rename_i p hp
    split
    · exact keeps_pure _ s
    · refine KeepsFrom.bind (keepsFrom_setLeaderState fun hi => ?_) fun _ s₁ _ => ?_
      · have hc := hi.tracker ls hls
        exact hc.update (hc.find? hp).becomeProbe
      · split
        · exact replicateTo_step _ _ s₁
        · exact keeps_pure _ s₁
  · exact keeps_pure _ s

/-! ### The leader's tick -/

/-- The loop of `tick_leader` goes over the progress read before it; the log does not change meanwhile, so those
entries still agree with it. -/
theorem tickLeaderLoop_step : ∀ (ps : List FollowerProgress) (s : Fsm), (∀ p ∈ ps, p.Consistent s.log.lastIdx) →
    KeepsFrom LeaderStep s (tickLeaderLoop ps)
  | [], s, _ => keeps_pure _ s
  | p :: ps, s, hps => by
    have hrest : ∀ s' : Fsm, s'.log = s.log → KeepsFrom LeaderStep s' (tickLeaderLoop ps) := fun s' hl =>
      tickLeaderLoop_step ps s' (hl ▸ fun q hq => hps q (List.mem_cons_of_mem p hq))
    unfold tickLeaderLoop
    refine keepsFrom_get_bind ?_
    lift_lets
    intro jp p'
    -- One more probe, or one request in flight less: the indexes stay.
    have hp' : p'.Consistent s.log.lastIdx := by
      have hp := hps p List.mem_cons_self
      simp only [p']
      split
      · exact hp.congr rfl rfl rfl rfl
      · split
        · exact ⟨hp.matchIdx_lt, hp.matchIdx_le, hp.nextIdx_le, fun hs => Nat.sub_le_of_le_add
            (by have := hp.inFlight_le hs; omega)⟩
        · exact hp
      · exact hp
    clear_value p'
    split
    · refine keepsFrom_leaderState_bind fun ls hls =>
        KeepsFrom.bind (keepsFrom_setLeaderState fun hi => (hi.tracker ls hls).update hp') fun _ s₁ h₁ => ?_
      rw [setLeaderState_eq_ok.1 h₁]
      split
      · exact KeepsFrom.bind (replicateTo_step _ _ _) fun _ s₂ h₂ => hrest s₂ (replicateTo_step _ _ _ h₂).log_eq
      · exact hrest _ rfl
    · exact hrest s rfl


/-- `tick_leader` reads the tracker once for its loop, in a state that satisfies the invariant. -/
theorem tickLeader_preserves (isAlive : Nat → Bool) : Keeps (Preserved ProgressInv) (tickLeader isAlive) := by
  unfold tickLeader
  dsimp only
  refine keeps_get_bind fun s => KeepsFrom.of_inv fun hi => ?_
  split
  · exact preserves_of_step (Keeps.bind (becomeFollower_step 0) fun _ => keeps_pure _) s
  refine keepsFrom_leaderState_bind fun ls hls => KeepsFrom.bind
    ((tickLeaderLoop_step _ s fun p hp => hi.tracker ls hls p hp).mono fun _ h => h.inv) fun _ s₁ _ => ?_
  refine preserves_of_step (Keeps.bind leaderState_step fun _ => ?_) s₁
  -- The stepdown check follows on every path; the liveness check moves only the election timer.
  refine Keeps.ite_seq (broadcastReadQuorum_step _)
    (Keeps.ite_seq (keeps_modify_of_eq (fun _ => by rfl) (fun _ => by rfl)) ?_)
  -- The stepdown timer: abort the transfer or repeat `timeout_now`.
  refine keeps_leaderState_bind fun s₂ ls₂ hls₂ => keepsFrom_get_bind ?_
  split
  · split
    · split
      · split
        · exact KeepsFrom.bind (keepsFrom_setLeaderState_of_tracker hls₂ (by rfl)) fun _ s₃ _ =>
            keeps_modify_of_eq (fun _ => by rfl) (fun _ => by rfl) s₃
        · split
          · exact sendTo_step _ _ s₂
          · exact keeps_pure _ s₂
      · exact keeps_pure _ s₂
    · exact keeps_pure _ s₂
  · exact keeps_pure _ s₂


/-! ### Elections -/

theorem campaignLoop_step (term : Nat) (isPrevote isLeadershipTransfer : Bool) :
    ∀ ids v, Keeps LeaderStep (campaignLoop term isPrevote isLeadershipTransfer ids v)
  | [], _ => keeps_pure _
  | i :: ids, v => by
    unfold campaignLoop
    dsimp only
    refine keeps_get_bind fun s => ?_
    split
    · -- The candidate's own vote, recorded unless a pre-vote.
      split
      · exact keepsFrom_set_bind (LeaderStep.of_eq rfl rfl)
          (campaignLoop_step term isPrevote isLeadershipTransfer ids _ _)
      · exact campaignLoop_step term isPrevote isLeadershipTransfer ids _ s
    · exact (Keeps.bind (sendTo_step _ _) fun _ => campaignLoop_step term isPrevote isLeadershipTransfer ids v) s

/-- A candidate has no tracker. -/
theorem keeps_setCandidate (votes : Votes) (isPrevote : Bool) :
    Keeps LeaderStep (modify fun s : Fsm => { s with state := .candidate votes isPrevote } : FsmM PUnit) :=
  keeps_modify fun _ => LeaderStep.of_not_leader rfl fun _ h => by cases h

/-- The election proper of `become_candidate`: a new term unless a pre-vote, the requests, and the count. -/
private theorem election_step (isPrevote isLeadershipTransfer : Bool) (term : Nat) (votes : Votes) :
    Keeps LeaderStep (do
      if !isPrevote then updateCurrentTerm term
      let votes ← campaignLoop term isPrevote isLeadershipTransfer votes.voters votes
      modify fun s => { s with state := .candidate votes isPrevote }
      return votes.tallyVotes == .won : FsmM Bool) := by
  have hcount := Keeps.bind (campaignLoop_step term isPrevote isLeadershipTransfer votes.voters votes)
    fun votes => Keeps.bind (keeps_setCandidate votes isPrevote) fun _ =>
      keeps_pure (R := LeaderStep) (votes.tallyVotes == .won)
  exact Keeps.ite (Keeps.bind (updateCurrentTerm_step _) fun _ => hcount) hcount

theorem campaign_step (isPrevote isLeadershipTransfer : Bool) (rnd : Nat) :
    Keeps LeaderStep (campaign isPrevote isLeadershipTransfer rnd) := by
  unfold campaign
  dsimp only
  refine keeps_get_bind fun s =>
    keepsFrom_set_bind (LeaderStep.of_not_leader (by split_ifs <;> rfl) fun _ h => by cases h) ?_
  refine (Keeps.bind (resetElectionTimeout_step rnd) fun _ => Keeps.bind
    (keeps_modify_of_eq (fun _ => by rfl) (fun _ => by rfl)) fun _ => Keeps.get_bind fun s => ?_) _
  -- A server that is no voter gives up, unless it voted in the previous configuration.
  refine Keeps.ite (Keeps.ite (Keeps.bind (becomeFollower_step 0) fun _ => keeps_pure _) ?_)
    (election_step _ _ _ _)
  split
  · exact Keeps.ite (Keeps.bind (becomeFollower_step 0) fun _ => keeps_pure _) (election_step _ _ _ _)
  · exact keeps_throw_bind _ _

/-- A new leader starts its tracker from the configuration, after the dummy entry of its term. -/
theorem becomeLeader_preserves : Keeps (Preserved ProgressInv) becomeLeader := by
  intro s u s' h hi
  cases hl : s.isLeader
  · simp only [isLeader] at hl
    simp [becomeLeader, addEntry, checkIsLeader, leaderState, setLeaderState, hl, isLeader] at h
    subst h
    -- The log gained the dummy entry, and the tracker starts every member at its index.
    refine ⟨hi.wellFormed.emplaceBack (e := { term := s.currentTerm, idx := s.log.nextIdx, data := .dummy }) rfl,
      fun ls hls => ?_⟩
    cases hls
    exact (Tracker.consistent_empty _).setConfiguration _ (lastIdx_emplaceBack_pos hi _) (Nat.le_succ _)
  · simp [becomeLeader, hl] at h

theorem becomeCandidate_preserves (isPrevote isLeadershipTransfer : Bool) (rnd : Nat) :
    Keeps (Preserved ProgressInv) (becomeCandidate isPrevote isLeadershipTransfer rnd) := by
  unfold becomeCandidate
  have hc := fun p t => preserves_of_step (campaign_step p t rnd)
  refine Keeps.bind (hc _ _) fun won => Keeps.ite ?_ (keeps_pure _)
  refine Keeps.ite (Keeps.bind (hc _ _) fun _ => Keeps.ite becomeLeader_preserves (keeps_pure _)) ?_
  exact becomeLeader_preserves

theorem requestVote_step (src : Nat) (req : VoteRequest) : Keeps LeaderStep (requestVote src req) := by
  unfold requestVote
  dsimp only
  refine keeps_get_bind fun s => ?_
  split
  · exact keeps_throw_bind _ _ s
  · split
    · split
      · exact keepsFrom_set_bind (LeaderStep.of_eq rfl rfl) (sendTo_step _ _ _)
      · exact sendTo_step _ _ s
    · exact sendTo_step _ _ s

theorem requestVoteReply_preserves (src : Nat) (reply : VoteReply) (rnd : Nat) :
    Keeps (Preserved ProgressInv) (requestVoteReply src reply rnd) := by
  unfold requestVoteReply
  refine keeps_get_bind fun s => ?_
  split
  · dsimp only
    split
    · exact keeps_pure _ s
    · refine keepsFrom_set_bind (LeaderStep.of_not_leader (by rfl) fun _ h => by cases h).inv ?_
      split
      · exact keeps_pure _ _
      · exact Keeps.ite (becomeCandidate_preserves _ _ _) becomeLeader_preserves _
      · exact preserves_of_step (becomeFollower_step 0) _
  · exact keeps_throw _ s

theorem maybeResendVoteRequest_step (dst : Nat) : Keeps LeaderStep (maybeResendVoteRequest dst) := by
  unfold maybeResendVoteRequest
  refine Keeps.get_bind fun s => ?_
  split
  · exact Keeps.ite (sendTo_step _ _) (keeps_pure _)
  · exact keeps_throw _


/-! ### The follower's side, ticks and output -/

theorem not_leader_of_isFollower {s : Fsm} (h : s.isFollower = true) : ∀ ls, s.state ≠ .leader ls := by
  intro ls hls
  simp [isFollower, hls] at h

/-- A follower's log changes by `maybe_append`, which keeps it well formed. -/
theorem appendEntries_preserves (src : Nat) (req : AppendRequest) :
    Keeps (Preserved ProgressInv) (appendEntries src req) := by
  unfold appendEntries
  dsimp only
  refine keeps_get_bind fun s => ?_
  -- The commit index moves only up, and the reply is sent.
  have hreply := fun (lastNewIdx : Nat) => preserves_of_step (Keeps.bind
    (advanceCommitIdx_step (min req.leaderCommitIdx lastNewIdx)) fun _ => Keeps.get_bind fun s => sendTo_step src
      (.appendReply { currentTerm := s.currentTerm, commitIdx := s.commitIdx, result := .accepted lastNewIdx }))
  split
  · exact keeps_throw_bind _ _ s
  rename_i hfol
  have hfol' : s.isFollower = true := by simpa using hfol
  split
  · exact preserves_of_step (Keeps.bind (sendTo_step _ _) fun _ => keeps_pure _) s
  · split
    · exact (Keeps.bind (keeps_pure _) hreply) s
    · refine KeepsFrom.bind (keeps_lift _ s) fun x s' hx => ?_
      obtain ⟨hm, rfl⟩ := run_lift_eq_ok.1 hx
      obtain ⟨l, i⟩ := x
      exact keepsFrom_set_bind (fun hi => .of_not_leader (hi.wellFormed.maybeAppend hm)
        (not_leader_of_isFollower hfol')) ((Keeps.bind (keeps_pure _) hreply) _)

theorem sendPingMessages_step (isAlive : Nat → Bool) : Keeps LeaderStep (sendPingMessages isAlive) := by
  unfold sendPingMessages
  dsimp only
  refine keeps_get_bind fun s => ?_
  split
  · exact keepsFrom_set (LeaderStep.of_eq rfl rfl)
  · exact keeps_pure _ s

theorem tick_preserves (isAlive : Nat → Bool) (rnd : Nat) : Keeps (Preserved ProgressInv) (tick isAlive rnd) := by
  unfold tick
  dsimp only
  refine Keeps.bind (preserves_of_step (keeps_modify_of_eq (fun _ => by rfl) (fun _ => by rfl))) fun _ =>
    Keeps.get_bind fun s => ?_
  -- A follower without a leader that was asked to find one pings the voters.
  have hping := preserves_of_step (Keeps.get_bind fun (s : Fsm) =>
    Keeps.ite (c := (s.isFollower && s.currentLeader == 0 && s.pingLeader) = true)
      (sendPingMessages_step isAlive) (keeps_pure ()))
  refine Keeps.ite (Keeps.bind (tickLeader_preserves _) fun _ => hping) (Keeps.ite ?_ ?_)
  · refine Keeps.bind ?_ fun _ => hping
    exact preserves_of_step (keeps_modify_of_eq (fun _ => by rfl) (fun _ => by rfl))
  · exact Keeps.ite (Keeps.bind (becomeCandidate_preserves _ _ _) fun _ => hping) hping

/-- A snapshot replaces the log by a well-formed one that ends no earlier; a leader applies only local ones. -/
theorem applySnapshot_preserves (snp : SnapshotDescriptor) (te tb : Nat) (isLocal : Bool) :
    Keeps (Preserved ProgressInv) (applySnapshot snp te tb isLocal) := by
  intro s b s' h hi
  simp [applySnapshot] at h
  split at h
  · split at h
    · obtain ⟨_, hset, -⟩ := run_map_eq_ok.1 h
      rw [run_set_eq_ok] at hset
      subst hset
      exact hi.of_eq rfl rfl
    · obtain ⟨⟨l, rel, nf⟩, s₁, hlift, h⟩ := run_bind_eq_ok.1 h
      obtain ⟨ha, rfl⟩ := run_lift_eq_ok.1 hlift
      obtain ⟨_, hset, -⟩ := run_map_eq_ok.1 h
      rw [run_set_eq_ok] at hset
      subst hset
      have hlast := hi.wellFormed.lastIdx_applySnapshot ha
      exact ⟨hi.wellFormed.applySnapshot ha, fun ls hls =>
        (hi.tracker ls hls).mono (by show s.log.lastIdx ≤ l.lastIdx; omega)⟩
  · simp at h

theorem flushLeader_step (diff : Nat) : Keeps LeaderStep (flushLeader diff) := by
  unfold flushLeader
  dsimp only
  refine Keeps.get_bind fun _ => Keeps.ite (Keeps.bind leaderState_step fun ls => ?_) (keeps_pure _)
  have hreplicate : Keeps LeaderStep (if diff ≠ 0 then replicate else pure ()) := Keeps.ite replicate_step (keeps_pure _)
  exact Keeps.ite (Keeps.bind (broadcastReadQuorum_step _) fun _ => keeps_leaderState_bind fun s ls hls =>
    KeepsFrom.bind (keepsFrom_setLeaderState_of_tracker hls (by rfl)) fun _ s₁ _ => hreplicate s₁) hreplicate

/-- Handing out the output changes neither the log nor the role; the stable index moves last. -/
theorem takeOutput_preserves (diff : Nat) : Keeps (Preserved ProgressInv) (takeOutput diff) := by
  unfold takeOutput
  dsimp only
  refine keeps_get_bind fun s => KeepsFrom.bind_of_eq (keeps_lift _) fun _ => KeepsFrom.bind_of_eq (keeps_lift _)
    fun _ => keepsFrom_set_bind (LeaderStep.preserved_of_eq (by rfl) (by rfl)) ?_
  split
  · exact (Keeps.bind (advanceStableIdx_preserves _) fun _ => keeps_pure _) _
  · exact keeps_pure _ _

theorem getOutput_preserves : Keeps (Preserved ProgressInv) getOutput :=
  Keeps.get_bind fun _ => Keeps.bind (preserves_of_step (flushLeader_step _)) fun _ => takeOutput_preserves _

theorem pingLeaderOp_step (isAlive : Nat → Bool) : Keeps LeaderStep (pingLeaderOp isAlive) := by
  unfold pingLeaderOp
  refine Keeps.get_bind fun s => Keeps.ite (keeps_throw_bind _ _) ?_
  exact Keeps.bind (keeps_modify_of_eq (fun _ => by rfl) (fun _ => by rfl)) fun _ => sendPingMessages_step isAlive

theorem stop_step : Keeps LeaderStep stop :=
  Keeps.get_bind fun _ => Keeps.ite (becomeFollower_step 0) (keeps_pure _)


/-! ### Messages -/

theorem dispatch_preserves (src : Nat) (msg : RpcMessage) (rnd : Nat) {s : Fsm}
    (hadm : ∀ r, msg = .appendReply r → ∀ ls, s.state = .leader ls → r.Admissible s.log.lastIdx) :
    KeepsFrom (Preserved ProgressInv) s (dispatch src msg rnd) := by
  unfold dispatch
  refine keepsFrom_get_bind ?_
  -- One goal per arm of the match on the role and the message; only a leader's append replies need the contract.
  split
  · exact keeps_pure _ s
  · rename_i m hls
    exact appendEntriesReply_preserves src m (hadm m rfl _ hls)
  · exact preserves_of_step (requestVote_step _ _) s
  · exact preserves_of_step (sendTo_step _ _) s
  · exact preserves_of_step (installSnapshotReply_step _ _) s
  · exact preserves_of_step (handleReadQuorumReply_step _ _) s
  · exact preserves_of_step (requestVote_step _ _) s
  · exact requestVoteReply_preserves _ _ _ s
  · exact preserves_of_step (sendTo_step _ _) s
  · exact preserves_of_step (maybeResendVoteRequest_step _) s
  · exact appendEntries_preserves _ _ s
  · exact preserves_of_step (requestVote_step _ _) s
  · exact (Keeps.bind (applySnapshot_preserves _ _ _ _) fun _ => preserves_of_step (sendTo_step _ _)) s
  · exact becomeCandidate_preserves _ _ _ s
  · exact preserves_of_step (Keeps.bind (advanceCommitIdx_step _) fun _ => Keeps.get_bind fun _ => sendTo_step _ _) s
  · exact keeps_pure _ s


theorem becomeFollower_state {leader : Nat} {s s' : Fsm} {u : PUnit} (h : (becomeFollower leader).run s = .ok (u, s')) :
    s'.state = .follower leader := by
  unfold becomeFollower at h
  obtain ⟨a, s₁, hg, h₁⟩ := run_bind_eq_ok.1 h
  obtain ⟨rfl, rfl⟩ := run_get_eq_ok.1 hg
  dsimp only at h₁
  split at h₁
  · obtain ⟨_, _, hth, -⟩ := run_bind_eq_ok.1 h₁
    exact absurd hth run_throw_ne_ok
  · rw [run_set_eq_ok] at h₁
    subst h₁
    split_ifs <;> rfl

theorem updateCurrentTerm_state {t : Nat} {s s' : Fsm} {u : PUnit} (h : (updateCurrentTerm t).run s = .ok (u, s')) :
    s'.state = s.state := by
  unfold updateCurrentTerm at h
  obtain ⟨a, s₁, hg, h₁⟩ := run_bind_eq_ok.1 h
  obtain ⟨rfl, rfl⟩ := run_get_eq_ok.1 hg
  split at h₁
  · rw [run_set_eq_ok] at h₁
    subst h₁
    rfl
  · exact absurd h₁ run_throw_ne_ok

/-- `step` under the network's contract on the leader's append replies of its term. -/
theorem step_preserves (src : Nat) (msg : RpcMessage) (rnd : Nat) {s : Fsm}
    (hadm : ∀ r, msg = .appendReply r → ∀ ls, s.state = .leader ls → r.currentTerm = s.currentTerm →
      r.Admissible s.log.lastIdx) :
    KeepsFrom (Preserved ProgressInv) s (step src msg rnd) := by
  unfold step
  dsimp only
  refine keepsFrom_get_bind ?_
  split
  · exact keeps_throw_bind _ _ s
  split
  · -- A newer term: the server becomes a follower in it first, unless the message is a pre-vote.
    rename_i hgt
    split
    · exact keeps_pure _ s
    rw [if_neg Bool.false_ne_true]
    -- As a follower of the new term the server takes no append reply as a leader.
    have hfollow : ∀ (leader : Nat) (m : RpcMessage), KeepsFrom (Preserved ProgressInv) s (do
        becomeFollower leader
        updateCurrentTerm m.currentTerm
        dispatch src m rnd) := fun leader m =>
      KeepsFrom.bind (preserves_of_step (becomeFollower_step _) s) fun _ s₁ h₁ =>
        KeepsFrom.bind (preserves_of_step (updateCurrentTerm_step _) s₁) fun _ s₂ h₂ =>
          dispatch_preserves src m rnd fun r _ ls hls => by
            rw [updateCurrentTerm_state h₂, becomeFollower_state h₁] at hls
            cases hls
    -- A pre-vote or a granted pre-vote reply keeps the term, and is no append reply.
    split
    · split
      · exact hfollow _ _
      · exact dispatch_preserves src _ rnd fun r hr => by cases hr
    · split
      · exact hfollow _ _
      · exact dispatch_preserves src _ rnd fun r hr => by cases hr
    · rw [if_pos (by rfl)]
      exact hfollow _ _
  split
  · -- An older term: at most a reply, and the message is not handled.
    have hreply := fun m => preserves_of_step (Keeps.bind (sendTo_step src m) fun _ => keeps_pure (R := LeaderStep) ())
    split
    · exact hreply _ s
    · exact hreply _ s
    · exact hreply _ s
    · exact Keeps.ite (hreply _) (keeps_pure _) s
    · exact Keeps.ite (Keeps.bind (preserves_of_step (maybeResendVoteRequest_step _)) fun _ => keeps_pure _)
        (keeps_pure _) s
    · exact keeps_pure _ s
  · -- The current term: a message from its leader makes a candidate or a follower without a leader follow it.
    rename_i hngt hnlt
    have hnot := fun m (hm : ∀ r, m ≠ RpcMessage.appendReply r) (t : Fsm) =>
      dispatch_preserves (s := t) src m rnd fun r hr => absurd hr (hm r)
    have hheard := fun m hm => Keeps.bind (preserves_of_step (keeps_modify_of_eq (f := fun s : Fsm =>
      { s with lastElectionTime := s.now }) (fun _ => rfl) (fun _ => rfl))) fun _ => hnot m hm
    have hfollow := fun m hm => KeepsFrom.bind (preserves_of_step (becomeFollower_step src) s) fun _ s₁ _ =>
      hheard m hm s₁
    split
    -- The three messages of a leader share one arm in the source; split on the role in each.
    iterate 3
      split
      · exact hfollow _ (fun _ h => by cases h)
      · exact keepsFrom_set_bind (LeaderStep.of_not_leader (by rfl) fun _ h => by cases h).inv
          (hheard _ (fun _ h => by cases h) _)
      · exact hheard _ (fun _ h => by cases h) s
    -- Any other message is handled as it is; an append reply to a leader is one of its own term.
    refine dispatch_preserves src _ rnd fun r hr ls hls => hadm r hr ls hls ?_
    subst hr
    simp only [RpcMessage.currentTerm] at hngt hnlt
    omega

/-! ### Runs -/

/-- What the network delivers: an append reply in the leader's term answers one of its requests, and so names
indexes of its log.  Every other call is unconstrained. -/
def Op.Admissible (s : Fsm) : Op → Prop
  | .step _ (.appendReply r) _ =>
    ∀ ls, s.state = .leader ls → r.currentTerm = s.currentTerm → r.Admissible s.log.lastIdx
  | _ => True

private theorem keeps_bind_none {α : Type} {x : FsmM α} (hx : Keeps (Preserved ProgressInv) x) :
    Keeps (Preserved ProgressInv) (x >>= fun _ => pure (none : Option FsmOutput)) :=
  hx.bind fun _ => keeps_pure _

/-- Every entry point, called as the network allows, preserves the invariant. -/
theorem Op.exec_preserves {op : Op} {s : Fsm} (h : op.Admissible s) :
    KeepsFrom (Preserved ProgressInv) s op.exec := by
  cases op with
  | tick isAlive rnd => exact keeps_bind_none (tick_preserves isAlive rnd) s
  | step src msg rnd =>
    refine KeepsFrom.bind (step_preserves src msg rnd ?_) fun _ s' _ => keeps_pure _ s'
    rintro r rfl
    exact h
  | addEntry data => exact keeps_bind_none (addEntry_preserves data) s
  | getOutput => exact Keeps.bind getOutput_preserves (fun _ => keeps_pure _) s
  | applySnapshot snp te tb isLocal => exact keeps_bind_none (applySnapshot_preserves snp te tb isLocal) s
  | transferLeadership timeout => exact keeps_bind_none (preserves_of_step (transferLeadership_step timeout)) s
  | startReadBarrier requester => exact keeps_bind_none (preserves_of_step (startReadBarrier_step requester)) s
  | pingLeader isAlive => exact keeps_bind_none (preserves_of_step (pingLeaderOp_step isAlive)) s
  | stop => exact keeps_bind_none (preserves_of_step stop_step) s

/-- The runs of `Run` whose every call is admissible in the state it is made in. -/
inductive AdmissibleRun : Fsm → List FsmOutput → Fsm → Prop where
  | nil (s : Fsm) : AdmissibleRun s [] s
  | cons {s s' t : Fsm} {o : Option FsmOutput} {outs : List FsmOutput} (op : Op) :
      op.Admissible s → op.exec.run s = .ok (o, s') → AdmissibleRun s' outs t → AdmissibleRun s (o.toList ++ outs) t

theorem AdmissibleRun.run {s t : Fsm} {outs : List FsmOutput} (hr : AdmissibleRun s outs t) : Run s outs t := by
  induction hr with
  | nil s => exact .nil s
  | cons op _ hop _ ih => exact .cons op hop ih

theorem AdmissibleRun.progressInv {s t : Fsm} {outs : List FsmOutput} (hr : AdmissibleRun s outs t)
    (hs : ProgressInv s) : ProgressInv t := by
  induction hr with
  | nil => exact hs
  | cons op hadm hop _ ih => exact ih (Op.exec_preserves hadm hop hs)

/-- The constructor starts from a follower, or a candidate of a group of one, over the log it is given. -/
theorem create_progressInv {myId term votedFor commitIdx rnd : Nat} {log : Log} {config : FsmConfig} {s₀ : Fsm}
    (hlog : log.WellFormed) (h : create myId term votedFor log commitIdx config rnd = .ok s₀) : ProgressInv s₀ := by
  unfold create at h
  dsimp only at h
  by_cases hid : myId = 0
  · rw [if_pos hid, except_throw_bind] at h
    exact absurd h except_throw_ne_ok
  rw [if_neg hid] at h
  obtain ⟨⟨u, s₁⟩, hstart, hret⟩ := except_bind_eq_ok.1 h
  cases except_pure_eq_ok.1 hret
  refine (Keeps.ite (becomeCandidate_preserves _ _ _) (preserves_of_step (resetElectionTimeout_step _))) _ hstart ?_
  exact ProgressInv.of_not_leader hlog fun _ h => by cases h

end Fsm

open Fsm in
/-- The progress a leader keeps of each follower, over every run the network can produce from the constructor:
`match_idx < next_idx`, `match_idx ≤ last_idx()`, and at most `max_in_flight` requests in flight in pipeline mode.
So a reject that \`is_stray_reject\` lets through names indexes above \`match_idx\`, and the new
\`next_idx = min(non_matching_idx, last_idx + 1)\` of \`append_entries_reply\` stays above it, as its
\`SCYLLA_ASSERT\` checks. -/
theorem leader_progress_invariant {myId term votedFor commitIdx rnd : Nat} {log : Log} {config : FsmConfig}
    {s₀ t : Fsm} {outs : List FsmOutput} (hlog : log.WellFormed)
    (hs₀ : create myId term votedFor log commitIdx config rnd = .ok s₀) (hr : AdmissibleRun s₀ outs t)
    {ls : LeaderState} (hls : t.state = .leader ls) {p : FollowerProgress} (hp : p ∈ ls.tracker.progress) :
    (p.matchIdx < p.nextIdx ∧ p.matchIdx ≤ t.log.lastIdx ∧ (p.state = .pipeline → p.inFlight ≤ maxInFlight)) ∧
      ∀ nonMatchingIdx lastIdx : Nat, p.isStrayReject nonMatchingIdx lastIdx = false →
        p.matchIdx < min nonMatchingIdx (lastIdx + 1) := by
  have hc : p.Consistent t.log.lastIdx := (hr.progressInv (create_progressInv hlog hs₀)).tracker ls hls p hp
  refine ⟨⟨hc.matchIdx_lt, hc.matchIdx_le, hc.inFlight_le⟩, fun nonMatchingIdx lastIdx hs => ?_⟩
  obtain ⟨hn, hl⟩ := lt_of_isStrayReject_eq_false hs
  exact lt_min hn hl

open StateExcept Fsm in
/-- Two voters: server 1 starts as the candidate of fast bootstrap and wins with the vote of 2, hands out its
append request, takes the reply of 2 that accepts index 1, and ticks.  It tracks follower 2 at match index 1. -/
theorem leader_progress_invariant_two_voters :
    ∃ s₀ outs t ls p, Fsm.create 1 0 0 ⟨{ config := { current := [⟨1, true⟩, ⟨2, true⟩] } }, [], 1, 0, 0, 0, 0, 0⟩ 0
        { appendRequestThreshold := 1, maxLogSize := 1, enablePrevoting := false, fastBootstrapSeed := some 0 } 0 =
        .ok s₀ ∧
      AdmissibleRun s₀ outs t ∧ t.state = .leader ls ∧ p ∈ ls.tracker.progress ∧ p.id = 2 ∧ p.matchIdx = 1 ∧
      (p.matchIdx < p.nextIdx ∧ p.matchIdx ≤ t.log.lastIdx ∧ (p.state = .pipeline → p.inFlight ≤ maxInFlight)) ∧
        ∀ nonMatchingIdx lastIdx : Nat, p.isStrayReject nonMatchingIdx lastIdx = false →
          p.matchIdx < min nonMatchingIdx (lastIdx + 1) := by
  have hlog : Log.WellFormed ⟨{ config := { current := [⟨1, true⟩, ⟨2, true⟩] } }, [], 1, 0, 0, 0, 0, 0⟩ :=
    ⟨⟨Nat.one_pos, fun h => by simp at h⟩, by decide, by decide, by decide, by rfl⟩
  have hok : (Fsm.create 1 0 0 ⟨{ config := { current := [⟨1, true⟩, ⟨2, true⟩] } }, [], 1, 0, 0, 0, 0, 0⟩ 0
        { appendRequestThreshold := 1, maxLogSize := 1, enablePrevoting := false, fastBootstrapSeed := some 0 } 0 >>=
      fun s₀ => (Op.step 2 (.voteReply ⟨1, true, false⟩) 0).exec.run s₀ >>= fun r₁ =>
      Op.getOutput.exec.run r₁.2 >>= fun r₂ =>
      (Op.step 2 (.appendReply ⟨1, 0, .accepted 1⟩) 0).exec.run r₂.2 >>= fun r₃ =>
      (Op.tick (fun _ => true) 0).exec.run r₃.2 >>= fun r₄ =>
      pure (r₂.2.log.lastIdx, r₂.2.currentTerm,
        (leaderState.run r₄.2).toOption.map fun x => (x.1.tracker.find? 2).map fun p => (p.matchIdx, p.nextIdx))) =
      .ok (1, 1, some (some (1, 2))) := by
    decide +kernel
  obtain ⟨s₀, hs₀, h⟩ := except_bind_eq_ok.1 hok
  obtain ⟨r₁, hr₁, h⟩ := except_bind_eq_ok.1 h
  obtain ⟨r₂, hr₂, h⟩ := except_bind_eq_ok.1 h
  obtain ⟨r₃, hr₃, h⟩ := except_bind_eq_ok.1 h
  obtain ⟨r₄, hr₄, h⟩ := except_bind_eq_ok.1 h
  simp only [except_pure_eq_ok, Prod.mk.injEq] at h
  obtain ⟨hlast, -, htracker⟩ := h
  -- The reply of 2 accepts index 1, the last index of the leader's log when it is delivered.
  have hadm : (Op.step 2 (.appendReply ⟨1, 0, .accepted 1⟩) 0).Admissible r₂.2 := fun _ _ _ => hlast.ge
  have hr : AdmissibleRun s₀ _ r₄.2 :=
    .cons _ (by trivial) hr₁ (.cons _ (by trivial) hr₂ (.cons _ hadm hr₃ (.cons _ (by trivial) hr₄ (.nil _))))
  rcases hl : leaderState.run r₄.2 with e | ⟨ls, s₅⟩
  · rw [hl] at htracker
    cases htracker
  rw [hl] at htracker
  obtain ⟨hst, -⟩ := leaderState_eq_ok.1 hl
  obtain ⟨p, hp, hpv⟩ := Option.map_eq_some_iff.1 (Option.some_injective _ htracker)
  have hmem := List.mem_of_find?_eq_some hp
  exact ⟨s₀, _, r₄.2, ls, p, hs₀, hr, hst, hmem, by simpa using List.find?_some hp, (Prod.mk.inj hpv).1,
    leader_progress_invariant hlog hs₀ hr hst hmem⟩

end Scylla.Raft
