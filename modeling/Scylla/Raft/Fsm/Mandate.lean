import Mathlib
import Scylla.Raft.Fsm.VoteSafety
import Scylla.Raft.Fsm.Progress
import Scylla.Raft.Votes

/-!
# What a leader was elected with

`raft/fsm.cc`, in a group whose configuration stays `C`, a configuration with one voter set: no server is asked to
change it, and the snapshots taken carry it.  A candidate counts the votes of `C`'s voters
(`votes(get_configuration())` in `become_candidate`), its own vote for itself when it is one of them, and then
each real vote reply that reaches it in its term (`request_vote_reply`); it becomes leader when they make a
quorum.

`ElectInv G C s`: the votes a real candidate has counted are, as `Votes.Counts` states them, the replies `rs` of an
election on `C`, and so are those a leader won with; each granted one is the server's own vote for itself, which it
still holds, or a grant `G v c T` of voter `v` to the server `c` in its term `T`.  `G` is whatever the network
holds; a cluster takes the real vote replies sent so far.

The handlers fall into three kinds.  Most keep the server's id, its role but for a leader's state written back or a
step down to a follower, and a configuration that stays `C` in the log and in the messages (`RoleFrame`); with the
term and the vote left alone (`VoteFrame`) they keep the invariant.  `request_vote` moves the vote, and only when
the server holds no vote for itself.  The rest change the role: `become_candidate` starts a count in which only the
candidate's own vote is in, `request_vote_reply` counts one reply, and `become_leader` is called on a won count.
-/

namespace Scylla.Raft

open StateExcept

/-! ### A configuration that stays `C` -/

/-- A log whose snapshot holds `C` and whose entries hold no configuration. -/
structure Log.FixedConfig (C : Configuration) (l : Log) : Prop where
  snapshot : l.snapshot.config = C
  entries : ∀ e ∈ l.entries, e.data.config? = none

/-- A message that carries no configuration but `C`: none in the entries of an append, `C` in a snapshot. -/
def RpcMessage.FixedConfig (C : Configuration) : RpcMessage → Prop
  | .appendRequest m => ∀ e ∈ m.entries, e.data.config? = none
  | .installSnapshot m => m.snp.config = C
  | _ => True

namespace Log

variable {C : Configuration} {l l' : Log}

theorem mem_entries_of_getEntry {i : Nat} {e : LogEntry} (h : l.getEntry i = some e) : e ∈ l.entries := by
  unfold getEntry at h
  split at h
  · exact List.mem_of_getElem? h
  · cases h

namespace FixedConfig

/-- The configuration in force is the snapshot's. -/
theorem getConfiguration_eq (h : l.FixedConfig C) : l.getConfiguration = C := by
  unfold getConfiguration
  split
  · cases he : l.getEntry l.lastConf with
    | none => exact h.snapshot
    | some e =>
      rw [Option.bind_some, h.entries e (mem_entries_of_getEntry he)]
      exact h.snapshot
  · exact h.snapshot

theorem congr (h : l.FixedConfig C) (hs : l'.snapshot = l.snapshot) (he : ∀ e ∈ l'.entries, e ∈ l.entries) :
    l'.FixedConfig C :=
  ⟨hs ▸ h.snapshot, fun e hmem => h.entries e (he e hmem)⟩

theorem emplaceBack (h : l.FixedConfig C) {e : LogEntry} (he : e.data.config? = none) :
    (l.emplaceBack e).FixedConfig C := by
  refine ⟨by rw [emplaceBack_snapshot]; exact h.snapshot, fun x hx => ?_⟩
  rw [emplaceBack_entries] at hx
  rcases List.mem_append.1 hx with hx | hx
  · exact h.entries x hx
  · rw [List.mem_singleton.1 hx]
    exact he

theorem stableTo (h : l.FixedConfig C) {idx : Nat} (hs : l.stableTo idx = .ok l') : l'.FixedConfig C := by
  obtain ⟨rfl, -⟩ := stableTo_eq_ok hs
  exact ⟨h.snapshot, h.entries⟩

theorem truncateUncommitted (h : l.FixedConfig C) {idx : Nat} (ht : l.truncateUncommitted idx = .ok l') :
    l'.FixedConfig C := by
  -- Every outcome keeps a prefix of the entries.
  have hprefix : ∀ {l'' : Log}, l''.snapshot = l.snapshot → l''.entries = l.entries.take (idx - l.firstIdx) →
      l''.FixedConfig C :=
    fun hs he => h.congr hs fun e hmem => List.mem_of_mem_take (he ▸ hmem)
  unfold Log.truncateUncommitted at ht
  split at ht
  · cases ht
  · dsimp only at ht
    split at ht
    · split at ht
      · cases ht
        exact hprefix rfl rfl
      · cases ht
    · cases ht
      exact hprefix rfl rfl

/-- Appending entries that hold no configuration. -/
theorem maybeAppendLoop : ∀ {l l' : Log} {es : List LogEntry}, l.FixedConfig C →
    (∀ e ∈ es, e.data.config? = none) → l.maybeAppendLoop es = .ok l' → l'.FixedConfig C
  | l, l', [], h, _, hm => by
    cases hm
    exact h
  | l, l', e :: es, h, hes, hm => by
    have he := hes e List.mem_cons_self
    have hrest := fun x hx => hes x (List.mem_cons_of_mem e hx)
    simp only [Log.maybeAppendLoop] at hm
    split at hm
    · split at hm
      · exact maybeAppendLoop h hrest hm
      · split at hm
        · exact maybeAppendLoop h hrest hm
        · split at hm
          · cases hm
          · cases ht : l.truncateUncommitted e.idx with
            | error => simp [ht] at hm; cases hm
            | ok l1 =>
              simp only [ht, bind, Except.bind] at hm
              split at hm
              · cases hm
              · exact maybeAppendLoop ((h.truncateUncommitted ht).emplaceBack he) hrest hm
    · split at hm
      · cases hm
      · exact maybeAppendLoop (h.emplaceBack he) hrest hm

theorem maybeAppend (h : l.FixedConfig C) {es : List LogEntry} (hes : ∀ e ∈ es, e.data.config? = none) {i : Nat}
    (hm : l.maybeAppend es = .ok (l', i)) : l'.FixedConfig C := by
  unfold Log.maybeAppend at hm
  split at hm
  · cases hm
  · obtain ⟨l1, hl, hr⟩ := except_bind_eq_ok.1 hm
    cases hr
    exact h.maybeAppendLoop hes hl

/-- A snapshot of `C`: what stays of the entries is a suffix of them, or nothing. -/
theorem applySnapshot (h : l.FixedConfig C) {snp : SnapshotDescriptor} (hsnp : snp.config = C)
    {te tb released newFirst : Nat} (ha : l.applySnapshot snp te tb = .ok (l', released, newFirst)) :
    l'.FixedConfig C := by
  refine ⟨by rw [applySnapshot_snapshot ha]; exact hsnp, fun e hmem => ?_⟩
  unfold Log.applySnapshot at ha
  split at ha
  · cases ha
  · dsimp only at ha
    split at ha
    · simp only [Except.ok.injEq, Prod.mk.injEq] at ha
      obtain ⟨rfl, -, -⟩ := ha
      revert hmem
      split_ifs <;> exact fun hmem => by cases hmem
    · simp only [Except.ok.injEq, Prod.mk.injEq] at ha
      obtain ⟨rfl, -, -⟩ := ha
      revert hmem
      split_ifs <;> exact fun hmem => h.entries e (List.mem_of_mem_drop hmem)

end FixedConfig

end Log

namespace Fsm

/-- A server whose log and pending messages, those of its output included, carry no configuration but `C`. -/
structure FixedConfig (C : Configuration) (s : Fsm) : Prop where
  log : s.log.FixedConfig C
  messages : ∀ m ∈ s.messages, m.2.FixedConfig C
  outputMessages : ∀ m ∈ s.output.messages, m.2.FixedConfig C

/-! ### Handlers that keep the role -/

/-- What every handler keeps: the server's id, and a configuration that stays `C`. -/
structure ConfigFrame (C : Configuration) (s s' : Fsm) : Prop where
  myId : s'.myId = s.myId
  fixedConfig : s.FixedConfig C → s'.FixedConfig C

/-- What most handlers keep besides: the role, but for a leader's state written back or a step down to a
follower. -/
structure RoleFrame (C : Configuration) (s s' : Fsm) : Prop extends ConfigFrame C s s' where
  role : s'.state = s.state ∨ s.isLeader = true ∧ s'.isLeader = true ∨ s'.isFollower = true

variable {C : Configuration}

namespace ConfigFrame

instance : Std.Refl (ConfigFrame C) := ⟨fun _ => ⟨rfl, id⟩⟩

instance : IsTrans Fsm (ConfigFrame C) :=
  ⟨fun _ _ _ h₁ h₂ => ⟨h₂.myId.trans h₁.myId, h₂.fixedConfig ∘ h₁.fixedConfig⟩⟩

/-- The same log and messages. -/
theorem of_view {s s' : Fsm}
    (h : (s'.myId, s'.log, s'.messages, s'.output.messages) = (s.myId, s.log, s.messages, s.output.messages)) :
    ConfigFrame C s s' := by
  simp only [Prod.mk.injEq] at h
  obtain ⟨h₁, h₂, h₃, h₄⟩ := h
  exact ⟨h₁, fun hf => ⟨h₂ ▸ hf.log, h₃ ▸ hf.messages, h₄ ▸ hf.outputMessages⟩⟩

end ConfigFrame

/-- No server is a leader and a follower at once. -/
theorem isLeader_eq_false_of_isFollower {s : Fsm} (h : s.isFollower = true) : s.isLeader = false := by
  cases hl : s.isLeader
  · rfl
  · obtain ⟨ls, hls⟩ := isLeader_eq_true.1 hl
    exact absurd hls (not_leader_of_isFollower h ls)

namespace RoleFrame

instance : Std.Refl (RoleFrame C) := ⟨fun _ => ⟨refl_of (ConfigFrame C) _, .inl rfl⟩⟩

instance : IsTrans Fsm (RoleFrame C) := by
  refine ⟨fun _ _ _ h₁ h₂ => ⟨trans_of (ConfigFrame C) h₁.toConfigFrame h₂.toConfigFrame, ?_⟩⟩
  -- A leader stays one, or steps down; a follower stays one.
  rcases h₂.role with h | ⟨hl₁, hl₂⟩ | h
  · rcases h₁.role with h' | ⟨hl, hl'⟩ | h'
    · exact .inl (h.trans h')
    · exact .inr (.inl ⟨hl, by rw [isLeader, h]; exact hl'⟩)
    · exact .inr (.inr (by rw [isFollower, h]; exact h'))
  · rcases h₁.role with h' | ⟨hl, -⟩ | h'
    · exact .inr (.inl ⟨by rw [isLeader, ← h']; exact hl₁, hl₂⟩)
    · exact .inr (.inl ⟨hl, hl₂⟩)
    · exact absurd hl₁ (by rw [isLeader_eq_false_of_isFollower h']; decide)
  · exact .inr (.inr h)

/-- The same id, role, log and messages. -/
theorem of_view {s s' : Fsm}
    (h : (s'.myId, s'.state, s'.log, s'.messages, s'.output.messages) =
      (s.myId, s.state, s.log, s.messages, s.output.messages)) : RoleFrame C s s' := by
  simp only [Prod.mk.injEq] at h
  obtain ⟨h₁, h₂, h₃, h₄, h₅⟩ := h
  exact ⟨ConfigFrame.of_view (by rw [h₁, h₃, h₄, h₅]), .inl h₂⟩

/-- Messages that carry no configuration but `C` when the server's log does not. -/
theorem of_append {s : Fsm} {ms : List (Nat × RpcMessage)} (hms : s.log.FixedConfig C → ∀ m ∈ ms, m.2.FixedConfig C) :
    RoleFrame C s { s with messages := s.messages ++ ms } := by
  refine ⟨⟨rfl, fun hf => ⟨hf.log, fun m hm => ?_, hf.outputMessages⟩⟩, .inl rfl⟩
  rcases List.mem_append.1 hm with hm | hm
  · exact hf.messages m hm
  · exact hms hf.log m hm

/-- A follower stays one. -/
theorem isFollower {s s' : Fsm} (h : RoleFrame C s s') (hs : s.isFollower = true) : s'.isFollower = true := by
  rcases h.role with h | ⟨hl, -⟩ | h
  · rwa [Fsm.isFollower, h]
  · exact absurd hl (by rw [isLeader_eq_false_of_isFollower hs]; decide)
  · exact h

end RoleFrame

theorem roleFrame_of_readOnly {α : Type} {x : FsmM α} (h : Keeps Eq x) : Keeps (RoleFrame C) x := h.of_eq

theorem sendTo_roleFrame (dst : Nat) {m : RpcMessage} (hm : m.FixedConfig C) : Keeps (RoleFrame C) (sendTo dst m) :=
  keeps_modify fun _ => RoleFrame.of_append fun _ x hx => by rw [List.mem_singleton.1 hx]; exact hm

/-- A leader's state written back over a leader's. -/
theorem keepsFrom_setLeaderState_roleFrame {s : Fsm} (hs : s.isLeader = true) (ls : LeaderState) :
    KeepsFrom (RoleFrame C) s (setLeaderState ls) := by
  intro u s' h
  rw [setLeaderState_eq_ok.1 h]
  exact ⟨ConfigFrame.of_view rfl, .inr (.inl ⟨hs, rfl⟩)⟩

theorem leaderState_isLeader {s : Fsm} {ls : LeaderState} (hls : s.state = .leader ls) : s.isLeader = true :=
  isLeader_eq_true.2 ⟨ls, hls⟩

theorem resetElectionTimeout_roleFrame (rnd : Nat) : Keeps (RoleFrame C) (resetElectionTimeout rnd) :=
  keeps_modify fun _ => RoleFrame.of_view rfl

theorem advanceCommitIdx_roleFrame (leaderCommitIdx : Nat) :
    Keeps (RoleFrame C) (advanceCommitIdx leaderCommitIdx) :=
  keeps_modify fun _ => RoleFrame.of_view (by dsimp only; split <;> rfl)

theorem updateCurrentTerm_roleFrame (t : Nat) : Keeps (RoleFrame C) (updateCurrentTerm t) := by
  apply keeps_get_bind
  intro s
  split
  · exact keepsFrom_set (RoleFrame.of_view rfl)
  · exact keeps_throw _ s

/-- `become_follower` makes a follower, whatever the server was. -/
theorem becomeFollower_isFollower (leader : Nat) :
    Keeps (fun _ s' : Fsm => s'.isFollower = true) (becomeFollower leader) := by
  apply keeps_get_bind
  intro s
  dsimp only
  split
  · exact keeps_throw_bind _ _ s
  · exact keepsFrom_set (by split_ifs <;> rfl)

theorem becomeFollower_roleFrame (leader : Nat) : Keeps (RoleFrame C) (becomeFollower leader) := by
  intro s u s' h
  refine ⟨?_, .inr (.inr (becomeFollower_isFollower leader s h))⟩
  revert u s'
  apply keeps_get_bind
  intro s
  dsimp only
  split
  · exact keeps_throw_bind _ _ s
  · exact keepsFrom_set (ConfigFrame.of_view (by split_ifs <;> rfl))

/-! ### The leader's handlers -/

/-- The entries of a request are entries of the log. -/
theorem collectEntries_mem (l : Log) (threshold : Nat) (probe : Bool) :
    ∀ (fuel nextIdx size : Nat) {es : List LogEntry} {n : Nat},
      collectEntries l threshold probe fuel nextIdx size = .ok (es, n) → ∀ e ∈ es, e ∈ l.entries
  | 0, nextIdx, size, es, n, h => by
    cases h
    simp
  | fuel + 1, nextIdx, size, es, n, h => by
    unfold collectEntries at h
    split at h
    · split at h
      · cases h
      · rename_i e he
        split at h
        · cases h
          simpa using Log.mem_entries_of_getEntry he
        · obtain ⟨⟨es', n'⟩, hrec, hret⟩ := except_bind_eq_ok.1 h
          cases hret
          intro x hx
          rcases List.mem_cons.1 hx with rfl | hx
          · exact Log.mem_entries_of_getEntry he
          · exact collectEntries_mem l threshold probe fuel _ _ hrec x hx
    · cases h
      simp

/-- The requests of `replicate_to` carry entries of the log, or its snapshot. -/
theorem replicateToLoop_fixedConfig {s : Fsm} (hl : s.log.FixedConfig C) :
    ∀ (fuel : Nat) (p : FollowerProgress) (allowEmpty : Bool) (out : List (Nat × RpcMessage))
      {p' : FollowerProgress} {msgs : List (Nat × RpcMessage)}, (∀ m ∈ out, m.2.FixedConfig C) →
      replicateToLoop s fuel p allowEmpty out = .ok (p', msgs) → ∀ m ∈ msgs, m.2.FixedConfig C
  | 0, p, allowEmpty, out, p', msgs, hout, h => by
    cases h
    exact hout
  | fuel + 1, p, allowEmpty, out, p', msgs, hout, h => by
    -- One more message after those of `out`.
    have hone : ∀ m, m.2.FixedConfig C → ∀ x ∈ out ++ [m], x.2.FixedConfig C := by
      intro m hm x hx
      rcases List.mem_append.1 hx with hx | hx
      · exact hout x hx
      · rw [List.mem_singleton.1 hx]
        exact hm
    unfold replicateToLoop at h
    split at h
    · cases h
      exact hout
    split at h
    · cases h
      exact hout
    dsimp only at h
    rcases hterm : s.log.termFor (p.nextIdx - 1) with _ | prevTerm
    · rw [hterm] at h
      cases h
      exact hone _ hl.snapshot
    · rw [hterm] at h
      dsimp only at h
      split at h
      · obtain ⟨⟨es, q⟩, hq, hrec⟩ := except_bind_eq_ok.1 h
        obtain ⟨rfl, rfl⟩ := Prod.mk.inj (Except.ok.inj hq)
        exact replicateToLoop_fixedConfig hl fuel _ false _ (hone _ fun e he => by cases he) hrec
      · obtain ⟨⟨es, n⟩, hc, h₂⟩ := except_bind_eq_ok.1 h
        obtain ⟨⟨es', q⟩, hq, hrec⟩ := except_bind_eq_ok.1 h₂
        obtain ⟨rfl, -⟩ := Prod.mk.inj (Except.ok.inj hq)
        refine replicateToLoop_fixedConfig hl fuel _ false _ (hone _ fun e he => ?_) hrec
        exact hl.entries e (collectEntries_mem _ _ _ _ _ _ hc e he)

theorem replicateTo_roleFrame (id : Nat) (allowEmpty : Bool) : Keeps (RoleFrame C) (replicateTo id allowEmpty) := by
  unfold replicateTo
  refine keeps_leaderState_bind fun s ls hls => ?_
  split
  · refine keepsFrom_get_bind (KeepsFrom.bind (keeps_lift _ s) fun x s₁ hx => ?_)
    obtain ⟨hloop, rfl⟩ := run_lift_eq_ok.1 hx
    obtain ⟨p', msgs⟩ := x
    refine KeepsFrom.bind (keepsFrom_setLeaderState_roleFrame (leaderState_isLeader hls) _) fun _ s₂ h₂ => ?_
    rw [setLeaderState_eq_ok.1 h₂]
    intro u s₃ h₃
    rw [run_modify_eq_ok.1 h₃]
    exact RoleFrame.of_append fun hl => replicateToLoop_fixedConfig (s := s) hl _ _ _ _ (fun _ h => by cases h) hloop
  · exact keeps_throw _ s

theorem replicateLoop_roleFrame : ∀ ps, Keeps (RoleFrame C) (replicateLoop ps)
  | [] => keeps_pure _
  | p :: ps => by
    unfold replicateLoop
    refine keeps_get_bind fun s => ?_
    dsimp only
    split
    · exact (Keeps.bind (replicateTo_roleFrame _ _) fun _ => replicateLoop_roleFrame ps) s
    · exact replicateLoop_roleFrame ps s

theorem replicate_roleFrame : Keeps (RoleFrame C) replicate :=
  Keeps.bind (roleFrame_of_readOnly leaderState_readOnly) fun _ => replicateLoop_roleFrame _

/-- A new entry that holds no configuration. -/
theorem addEntry_roleFrame {data : EntryData} (hd : data.config? = none) : Keeps (RoleFrame C) (addEntry data) := by
  unfold addEntry
  dsimp only
  refine Keeps.bind (roleFrame_of_readOnly checkIsLeader_readOnly) fun _ =>
    keeps_leaderState_bind fun s ls hls => ?_
  split
  · exact keeps_throw_bind _ _ s
  · refine keepsFrom_get_bind ?_
    -- A configuration would also reset the tracker; only a command or a dummy comes here.
    have hconf : ∀ isConf : Bool, Keeps (RoleFrame C) (if isConf = true then do
          let s ← get
          let ls ← leaderState
          setLeaderState { ls with tracker := ls.tracker.setConfiguration s.log.getConfiguration s.log.lastIdx }
        else pure ()) := by
      intro isConf
      split
      · exact keeps_get_bind fun s => keeps_leaderState_bind (fun _ _ hls =>
          keepsFrom_setLeaderState_roleFrame (leaderState_isLeader hls) _) s
      · exact keeps_pure _
    have hlog : ∀ e : LogEntry, e.data.config? = none →
        RoleFrame C s { s with log := s.log.emplaceBack e } := fun e he =>
      ⟨⟨rfl, fun hf => ⟨hf.log.emplaceBack he, hf.messages, hf.outputMessages⟩⟩, .inl rfl⟩
    split
    · rename_i cmd
      exact absurd hd (by simp [EntryData.config?])
    · refine KeepsFrom.bind (keeps_pure _ s) fun d s₁ hp => ?_
      obtain ⟨rfl, rfl⟩ := run_pure_eq_ok.1 hp
      exact keepsFrom_set_bind (hlog _ hd) (hconf _ _)

theorem sendTimeoutNow_roleFrame (id : Nat) : Keeps (RoleFrame C) (sendTimeoutNow id) := by
  unfold sendTimeoutNow
  refine keeps_get_bind fun s => (Keeps.bind (sendTo_roleFrame (C := C) _ (by trivial)) fun _ =>
    keeps_leaderState_bind fun s₁ ls hls =>
      KeepsFrom.bind (keepsFrom_setLeaderState_roleFrame (leaderState_isLeader hls) _) fun _ s₂ _ => ?_) s
  split
  · split
    · exact becomeFollower_roleFrame 0 s₂
    · exact keeps_pure _ s₂
  · exact becomeFollower_roleFrame 0 s₂

theorem transferLeadership_roleFrame (timeout : Nat) : Keeps (RoleFrame C) (transferLeadership timeout) := by
  unfold transferLeadership
  dsimp only
  refine Keeps.bind (roleFrame_of_readOnly checkIsLeader_readOnly) fun _ =>
    keeps_leaderState_bind fun s ls hls => keepsFrom_get_bind ?_
  split
  · exact keeps_throw_bind _ _ s
  · refine KeepsFrom.bind (keepsFrom_setLeaderState_roleFrame (leaderState_isLeader hls) _) fun _ s₁ _ => ?_
    split
    · exact sendTimeoutNow_roleFrame _ s₁
    · exact keeps_pure _ s₁

theorem handleReadQuorumReply_roleFrame (src : Nat) (reply : ReadQuorumReply) :
    Keeps (RoleFrame C) (handleReadQuorumReply src reply) := by
  unfold handleReadQuorumReply
  dsimp only
  refine keeps_leaderState_bind fun s ls hls => ?_
  split
  · refine KeepsFrom.bind (keepsFrom_setLeaderState_roleFrame (leaderState_isLeader hls) _) fun _ s₁ h₁ => ?_
    rw [setLeaderState_eq_ok.1 h₁]
    split
    · exact keeps_pure _ _
    · split
      · exact keeps_pure _ _
      · exact KeepsFrom.bind (keepsFrom_setLeaderState_roleFrame rfl _) fun _ s₂ _ =>
          keeps_modify (R := RoleFrame C) (fun _ => RoleFrame.of_view (by rfl)) s₂
  · exact keeps_pure _ s

theorem broadcastReadQuorumLoop_roleFrame (id : Nat) : ∀ ps, Keeps (RoleFrame C) (broadcastReadQuorumLoop id ps)
  | [] => keeps_pure _
  | p :: ps => by
    unfold broadcastReadQuorumLoop
    dsimp only
    split
    · refine keeps_get_bind fun s => (?_ : Keeps (RoleFrame C) _) s
      split
      · exact Keeps.bind (handleReadQuorumReply_roleFrame _ _) fun _ => broadcastReadQuorumLoop_roleFrame id ps
      · exact Keeps.bind (sendTo_roleFrame (C := C) _ (by trivial)) fun _ => broadcastReadQuorumLoop_roleFrame id ps
    · exact broadcastReadQuorumLoop_roleFrame id ps

theorem broadcastReadQuorum_roleFrame (id : Nat) : Keeps (RoleFrame C) (broadcastReadQuorum id) :=
  Keeps.bind (roleFrame_of_readOnly leaderState_readOnly) fun _ => broadcastReadQuorumLoop_roleFrame id _

/-- The re-broadcast of a pending read barrier that ends `maybe_commit` after a configuration change. -/
private theorem rebroadcast_roleFrame : Keeps (RoleFrame C) (do
    match (← get).state with
    | .leader ls => if ls.lastReadId ≠ ls.maxReadIdWithQuorum then broadcastReadQuorum ls.lastReadId
    | _ => pure () : FsmM Unit) := by
  refine keeps_get_bind fun s => (?_ : Keeps (RoleFrame C) _) s
  split
  · split
    · exact broadcastReadQuorum_roleFrame _
    · exact keeps_pure _
  · exact keeps_pure _

/-- The commit rule.  With one voter set, the branch that leaves a joint configuration for the next one is never
taken. -/
theorem maybeCommitAux_roleFrame (hC : C.isJoint = false) : ∀ fuel, Keeps (RoleFrame C) (maybeCommitAux fuel)
  | 0 => keeps_pure _
  | fuel + 1 => by
    rw [maybeCommitAux]
    dsimp only
    refine keeps_leaderState_bind fun s₀ ls hls => keepsFrom_get_bind ?_
    split
    · exact keeps_pure _ s₀
    · split
      · split
        · exact keeps_pure _ s₀
        · refine keepsFrom_set_bind (RoleFrame.of_view rfl) ?_
          split
          · split
            · -- The log of a server whose configuration is `C` is in no joint configuration.
              rename_i hjoint
              refine keepsFrom_get_bind (keepsFrom_set_bind ⟨⟨rfl, fun hf => ?_⟩, .inl rfl⟩ ?_)
              · have hcfg : s₀.log.getConfiguration = C := hf.log.getConfiguration_eq
                rw [hcfg, hC] at hjoint
                cases hjoint
              · exact keeps_get_bind (fun s₁ => keeps_leaderState_bind (fun _ _ hls' =>
                  KeepsFrom.bind (keepsFrom_setLeaderState_roleFrame (leaderState_isLeader hls') _) fun _ s₂ _ =>
                    (Keeps.bind (maybeCommitAux_roleFrame hC fuel) fun _ => rebroadcast_roleFrame) s₂) s₁) _
            · refine (Keeps.bind (roleFrame_of_readOnly leaderState_readOnly) fun ls => ?_) _
              split
              · split
                · exact Keeps.bind (transferLeadership_roleFrame 0) fun _ => rebroadcast_roleFrame
                · exact rebroadcast_roleFrame
              · exact Keeps.bind (transferLeadership_roleFrame 0) fun _ => rebroadcast_roleFrame
          · exact keeps_pure _ _
      · exact keeps_throw _ s₀

theorem maybeCommit_roleFrame (hC : C.isJoint = false) : Keeps (RoleFrame C) maybeCommit :=
  maybeCommitAux_roleFrame hC 2

theorem advanceStableIdx_roleFrame (hC : C.isJoint = false) (idx : Nat) :
    Keeps (RoleFrame C) (advanceStableIdx idx) := by
  unfold advanceStableIdx
  refine keeps_get_bind fun s => ?_
  refine KeepsFrom.bind (keeps_lift _ s) fun l s' hl => ?_
  obtain ⟨hst, rfl⟩ := run_lift_eq_ok.1 hl
  refine keepsFrom_set_bind ⟨⟨rfl, fun hf => ⟨hf.log.stableTo hst, hf.messages, hf.outputMessages⟩⟩, .inl rfl⟩ ?_
  refine keeps_get_bind (fun _ => (?_ : Keeps (RoleFrame C) _) _) _
  split
  · refine keeps_leaderState_bind fun s₁ ls hls => ?_
    split
    · exact KeepsFrom.bind (keepsFrom_setLeaderState_roleFrame (leaderState_isLeader hls) _) fun _ s₂ _ =>
        maybeCommit_roleFrame hC s₂
    · exact keeps_pure _ _
  · exact keeps_pure _

theorem startReadBarrier_roleFrame (requester : Nat) : Keeps (RoleFrame C) (startReadBarrier requester) := by
  unfold startReadBarrier
  dsimp only
  refine Keeps.bind (roleFrame_of_readOnly checkIsLeader_readOnly) fun _ =>
    Keeps.bind (roleFrame_of_readOnly leaderState_readOnly) fun _ => Keeps.get_bind fun s => ?_
  have hnext : ∀ c : Nat, Keeps (RoleFrame C) (do
      let ls ← leaderState
      setLeaderState { ls with lastReadId := ls.lastReadId + 1, lastReadIdChanged := true }
      pure (some (ls.lastReadId + 1, c)) : FsmM (Option (Nat × Nat))) := fun c =>
    keeps_leaderState_bind fun _ ls hls =>
      KeepsFrom.bind (keepsFrom_setLeaderState_roleFrame (leaderState_isLeader hls) _) fun _ s₂ _ => keeps_pure _ s₂
  split
  · exact keeps_throw_bind _ _
  · split
    · split
      · exact keeps_pure _
      · split
        · split
          · exact Keeps.bind (replicateTo_roleFrame _ _) fun _ => hnext _
          · exact hnext _
        · exact hnext _
    · exact keeps_throw _

theorem appendEntriesReply_roleFrame (hC : C.isJoint = false) (src : Nat) (reply : AppendReply) :
    Keeps (RoleFrame C) (appendEntriesReply src reply) := by
  unfold appendEntriesReply
  dsimp only
  refine keeps_leaderState_bind fun s ls hls => ?_
  have hset := fun ls' => keepsFrom_setLeaderState_roleFrame (C := C) (leaderState_isLeader hls) ls'
  have hlast : Keeps (RoleFrame C)
      (do if ((← leaderState).tracker.find? src).isSome then replicateTo src false : FsmM Unit) :=
    Keeps.bind (roleFrame_of_readOnly leaderState_readOnly) fun _ =>
      Keeps.ite (replicateTo_roleFrame _ _) (keeps_pure _)
  have hcommit : Keeps (RoleFrame C)
      (do maybeCommit; if !(← get).isLeader then return else (do
        if ((← leaderState).tracker.find? src).isSome then replicateTo src false : FsmM Unit)) :=
    Keeps.bind (maybeCommit_roleFrame hC) fun _ => Keeps.get_bind fun _ => Keeps.ite (keeps_pure _) hlast
  split
  · rename_i p hp
    generalize (if (p.state == .pipeline) = true ∧ p.inFlight > 0 then { p with inFlight := p.inFlight - 1 } else p) =
      q
    split
    · exact KeepsFrom.bind (hset _) fun _ s₁ _ => keeps_pure _ s₁
    split
    · refine KeepsFrom.bind (hset _) fun _ s₁ _ => (Keeps.get_bind fun _ => ?_) s₁
      refine Keeps.ite ?_ hcommit
      exact Keeps.bind (sendTimeoutNow_roleFrame _) fun _ => Keeps.get_bind fun _ =>
        Keeps.ite (keeps_pure _) hcommit
    · refine KeepsFrom.bind (hset _) fun _ s₁ h₁ => ?_
      rw [setLeaderState_eq_ok.1 h₁]
      split
      · exact (Keeps.bind (replicateTo_roleFrame _ _) fun _ => keeps_pure _) _
      split
      · exact keeps_pure _ _
      split
      · exact keeps_throw_bind _ _ _
      · exact KeepsFrom.bind (keepsFrom_setLeaderState_roleFrame rfl _) fun _ s₂ _ => hlast s₂
  · exact keeps_pure _ s

theorem installSnapshotReply_roleFrame (src : Nat) (reply : SnapshotReply) :
    Keeps (RoleFrame C) (installSnapshotReply src reply) := by
  unfold installSnapshotReply
  refine keeps_leaderState_bind fun s ls hls => ?_
  split
  · split
    · exact keeps_pure _ s
    · refine KeepsFrom.bind (keepsFrom_setLeaderState_roleFrame (leaderState_isLeader hls) _) fun _ s₁ _ => ?_
      split
      · exact replicateTo_roleFrame _ _ s₁
      · exact keeps_pure _ s₁
  · exact keeps_pure _ s

theorem tickLeaderLoop_roleFrame : ∀ ps, Keeps (RoleFrame C) (tickLeaderLoop ps)
  | [] => keeps_pure _
  | p :: ps => by
    unfold tickLeaderLoop
    dsimp only
    refine Keeps.get_bind fun s => Keeps.ite ?_ (tickLeaderLoop_roleFrame ps)
    refine keeps_leaderState_bind fun _ _ hls =>
      KeepsFrom.bind (keepsFrom_setLeaderState_roleFrame (leaderState_isLeader hls) _) fun _ s₁ _ => ?_
    exact Keeps.ite (Keeps.bind (replicateTo_roleFrame _ _) fun _ => tickLeaderLoop_roleFrame ps)
      (tickLeaderLoop_roleFrame ps) s₁

theorem tickLeader_roleFrame (isAlive : Nat → Bool) : Keeps (RoleFrame C) (tickLeader isAlive) := by
  unfold tickLeader
  dsimp only
  refine Keeps.get_bind fun s => ?_
  split
  · exact Keeps.bind (becomeFollower_roleFrame 0) fun _ => keeps_pure _
  · refine Keeps.bind (roleFrame_of_readOnly leaderState_readOnly) fun ls =>
      Keeps.bind (tickLeaderLoop_roleFrame _) fun _ => Keeps.bind (roleFrame_of_readOnly leaderState_readOnly)
        fun ls' => ?_
    refine Keeps.ite_seq (broadcastReadQuorum_roleFrame _)
      (Keeps.ite_seq (keeps_modify fun _ => RoleFrame.of_view rfl) ?_)
    refine keeps_leaderState_bind fun s₁ ls hls => keepsFrom_get_bind ?_
    split
    · split
      · split
        · split
          · exact KeepsFrom.bind (keepsFrom_setLeaderState_roleFrame (leaderState_isLeader hls) _) fun _ s₂ _ =>
              keeps_modify (R := RoleFrame C) (fun _ => RoleFrame.of_view (by rfl)) s₂
          · split
            · exact sendTo_roleFrame (C := C) _ (by trivial) s₁
            · exact keeps_pure _ s₁
        · exact keeps_pure _ s₁
      · exact keeps_pure _ s₁
    · exact keeps_pure _ s₁

/-! ### The other handlers that keep the role -/

theorem maybeResendVoteRequest_roleFrame (dst : Nat) : Keeps (RoleFrame C) (maybeResendVoteRequest dst) := by
  unfold maybeResendVoteRequest
  refine Keeps.get_bind fun s => ?_
  split
  · exact Keeps.ite (sendTo_roleFrame _ (by trivial)) (keeps_pure _)
  · exact keeps_throw _

/-- A follower appends entries that hold no configuration. -/
theorem appendEntries_roleFrame (src : Nat) {req : AppendRequest} (hreq : ∀ e ∈ req.entries, e.data.config? = none) :
    Keeps (RoleFrame C) (appendEntries src req) := by
  unfold appendEntries
  dsimp only
  refine keeps_get_bind fun s => ?_
  have hreply : ∀ lastNewIdx : Nat, Keeps (RoleFrame C) (do
      advanceCommitIdx (min req.leaderCommitIdx lastNewIdx)
      let s ← get
      sendTo src (.appendReply { currentTerm := s.currentTerm, commitIdx := s.commitIdx, result := .accepted lastNewIdx })) :=
    fun _ => Keeps.bind (advanceCommitIdx_roleFrame _) fun _ => Keeps.get_bind fun _ => sendTo_roleFrame src (by trivial)
  split
  · exact keeps_throw_bind _ _ s
  · split
    · exact (Keeps.bind (sendTo_roleFrame _ (by trivial)) fun _ => keeps_pure _) s
    · split
      · exact (Keeps.bind (keeps_pure _) hreply) s
      · refine KeepsFrom.bind (keeps_lift _ s) fun x s' hx => ?_
        obtain ⟨hm, rfl⟩ := run_lift_eq_ok.1 hx
        exact keepsFrom_set_bind ⟨⟨rfl, fun hf => ⟨hf.log.maybeAppend hreq hm, hf.messages, hf.outputMessages⟩⟩,
          .inl rfl⟩ ((Keeps.bind (keeps_pure _) hreply) _)

/-- A snapshot of `C`. -/
theorem applySnapshot_roleFrame {snp : SnapshotDescriptor} (hsnp : snp.config = C) (te tb : Nat) (isLocal : Bool) :
    Keeps (RoleFrame C) (applySnapshot snp te tb isLocal) := by
  unfold applySnapshot
  dsimp only
  refine keeps_get_bind fun s => ?_
  split
  · split
    · exact keepsFrom_set_bind (RoleFrame.of_view rfl) (keeps_pure _ _)
    · refine KeepsFrom.bind (keeps_lift _ s) fun x s' hx => ?_
      obtain ⟨ha, rfl⟩ := run_lift_eq_ok.1 hx
      obtain ⟨l, released, newFirst⟩ := x
      exact keepsFrom_set_bind ⟨⟨rfl, fun hf => ⟨hf.log.applySnapshot hsnp ha, hf.messages, hf.outputMessages⟩⟩,
        .inl rfl⟩ (keeps_pure _ _)
  · exact keeps_throw_bind _ _ s

theorem sendPingMessages_roleFrame (isAlive : Nat → Bool) : Keeps (RoleFrame C) (sendPingMessages isAlive) := by
  unfold sendPingMessages
  dsimp only
  refine keeps_get_bind fun s => ?_
  split
  · refine keepsFrom_set (RoleFrame.of_append fun _ m hm => ?_)
    obtain ⟨x, -, rfl⟩ := List.mem_map.1 hm
    trivial
  · exact keeps_pure _ s

theorem flushLeader_roleFrame (diff : Nat) : Keeps (RoleFrame C) (flushLeader diff) := by
  unfold flushLeader
  dsimp only
  refine Keeps.get_bind fun _ => Keeps.ite (Keeps.bind (roleFrame_of_readOnly leaderState_readOnly) fun ls => ?_)
    (keeps_pure _)
  have hreplicate : Keeps (RoleFrame C) (if diff ≠ 0 then replicate else pure ()) :=
    Keeps.ite replicate_roleFrame (keeps_pure _)
  exact Keeps.ite (Keeps.bind (broadcastReadQuorum_roleFrame _) fun _ => keeps_leaderState_bind fun _ _ hls =>
    KeepsFrom.bind (keepsFrom_setLeaderState_roleFrame (leaderState_isLeader hls) _) fun _ s₁ _ => hreplicate s₁)
    hreplicate

theorem pingLeaderOp_roleFrame (isAlive : Nat → Bool) : Keeps (RoleFrame C) (pingLeaderOp isAlive) := by
  unfold pingLeaderOp
  refine Keeps.get_bind fun s => Keeps.ite (keeps_throw_bind _ _) ?_
  exact Keeps.bind (keeps_modify fun _ => RoleFrame.of_view rfl) fun _ => sendPingMessages_roleFrame isAlive

theorem stop_roleFrame : Keeps (RoleFrame C) stop :=
  Keeps.get_bind fun _ => Keeps.ite (becomeFollower_roleFrame 0) (keeps_pure _)

/-- `request_vote` moves the vote, which the role does not look at. -/
theorem requestVote_roleFrame (src : Nat) (req : VoteRequest) : Keeps (RoleFrame C) (requestVote src req) := by
  unfold requestVote
  dsimp only
  refine keeps_get_bind fun s => ?_
  split
  · exact keeps_throw_bind _ _ s
  · split
    · split
      · exact keepsFrom_set_bind (RoleFrame.of_view rfl) (sendTo_roleFrame _ (by trivial) _)
      · exact (Keeps.bind (keeps_pure _) fun _ => sendTo_roleFrame _ (by trivial)) s
    · exact sendTo_roleFrame _ (by trivial) s

theorem campaignLoop_roleFrame (term : Nat) (isPrevote isLeadershipTransfer : Bool) :
    ∀ ids v, Keeps (RoleFrame C) (campaignLoop term isPrevote isLeadershipTransfer ids v)
  | [], _ => keeps_pure _
  | id :: ids, v => by
    unfold campaignLoop
    dsimp only
    refine keeps_get_bind fun s => ?_
    split
    · split
      · exact keepsFrom_set_bind (RoleFrame.of_view rfl)
          (campaignLoop_roleFrame term isPrevote isLeadershipTransfer ids _ _)
      · exact campaignLoop_roleFrame term isPrevote isLeadershipTransfer ids _ s
    · exact (Keeps.bind (sendTo_roleFrame _ (by trivial)) fun _ =>
        campaignLoop_roleFrame term isPrevote isLeadershipTransfer ids v) s

/-- `get_output()` moves the pending messages to the output, and the output's, none, back. -/
theorem takeOutput_roleFrame (hC : C.isJoint = false) (diff : Nat) : Keeps (RoleFrame C) (takeOutput diff) := by
  unfold takeOutput
  dsimp only
  refine keeps_get_bind fun s => KeepsFrom.bind (keeps_lift _ s) fun les s₁ h₁ => ?_
  obtain ⟨-, rfl⟩ := run_lift_eq_ok.1 h₁
  refine KeepsFrom.bind (keeps_lift _ s) fun cs s₂ h₂ => ?_
  obtain ⟨-, rfl⟩ := run_lift_eq_ok.1 h₂
  refine keepsFrom_set_bind ⟨⟨rfl, fun hf => ⟨hf.log, hf.outputMessages, fun _ h => by cases h⟩⟩, .inl rfl⟩ ?_
  split
  · exact (Keeps.bind (advanceStableIdx_roleFrame hC _) fun _ => keeps_pure _) _
  · exact keeps_pure _ _

/-- The messages handed out are those the server had pending; the term and the vote stay. -/
theorem takeOutput_eq {diff : Nat} {s s' : Fsm} {o : FsmOutput} (h : (takeOutput diff).run s = .ok (o, s')) :
    o.messages = s.messages ∧ s'.currentTerm = s.currentTerm ∧ s'.votedFor = s.votedFor := by
  unfold takeOutput at h
  dsimp only at h
  obtain ⟨s0, s1, hg, h1⟩ := run_bind_eq_ok.1 h
  obtain ⟨rfl, rfl⟩ := run_get_eq_ok.1 hg
  obtain ⟨les, s2, hl, h2⟩ := run_bind_eq_ok.1 h1
  obtain ⟨-, rfl⟩ := run_lift_eq_ok.1 hl
  obtain ⟨cs, s3, hc, h3⟩ := run_bind_eq_ok.1 h2
  obtain ⟨-, rfl⟩ := run_lift_eq_ok.1 hc
  obtain ⟨u, s4, hset, h4⟩ := run_bind_eq_ok.1 h3
  rw [run_set_eq_ok] at hset
  subst hset
  split at h4
  · obtain ⟨u, s5, hadv, h5⟩ := run_bind_eq_ok.1 h4
    obtain ⟨rfl, rfl⟩ := run_pure_eq_ok.1 h5
    have hf := advanceStableIdx_voteFrame _ _ hadv
    exact ⟨rfl, hf.currentTerm, hf.votedFor⟩
  · obtain ⟨rfl, rfl⟩ := run_pure_eq_ok.1 h4
    exact ⟨rfl, rfl, rfl⟩

/-! ### What a candidate and a leader have counted -/

/-- The granted replies among `rs`, as the server `s` stands: its own vote for itself, which it still holds, or a
grant of the voter to it in its term. -/
def Justified (G : Nat → Nat → Nat → Prop) (s : Fsm) (rs : List (Nat × Bool)) : Prop :=
  ∀ v, (v, true) ∈ rs → v = s.myId ∧ s.votedFor = s.myId ∨ G v s.myId s.currentTerm

/-- A real candidate has counted the replies of an election on `C`, and a leader won one; each granted reply is
justified. -/
structure ElectInv (G : Nat → Nat → Nat → Prop) (C : Configuration) (s : Fsm) : Prop where
  myId_ne_zero : s.myId ≠ 0
  candidate : ∀ votes, s.state = .candidate votes false → ∃ rs, votes.Counts C rs ∧ Justified G s rs
  leader : s.isLeader = true →
    ∃ (votes : Votes) (rs : List (Nat × Bool)), votes.Counts C rs ∧ votes.tallyVotes = .won ∧ Justified G s rs

variable {G : Nat → Nat → Nat → Prop}

theorem Justified.congr {s s' : Fsm} {rs : List (Nat × Bool)} (h : Justified G s rs) (hid : s'.myId = s.myId)
    (ht : s'.currentTerm = s.currentTerm) (hv : s'.votedFor = s.votedFor) : Justified G s' rs := by
  intro v hmem
  rw [hid, ht, hv]
  exact h v hmem

namespace ElectInv

variable {s s' : Fsm}

/-- A follower has counted nothing. -/
theorem of_follower (hid : s.myId ≠ 0) (hf : s.isFollower = true) : ElectInv G C s where
  myId_ne_zero := hid
  candidate votes hst := absurd hf (by simp [isFollower, hst])
  leader hl := absurd hl (by rw [isLeader_eq_false_of_isFollower hf]; decide)

/-- A step that keeps the role keeps what was counted, if it keeps the justifications. -/
theorem of_role (h : ElectInv G C s) (hr : RoleFrame C s s') (hj : ∀ rs, Justified G s rs → Justified G s' rs) :
    ElectInv G C s' := by
  refine ⟨hr.myId ▸ h.myId_ne_zero, fun votes hst => ?_, fun hl => ?_⟩
  · rcases hr.role with hrole | ⟨-, hl'⟩ | hf
    · obtain ⟨rs, hc, hjs⟩ := h.candidate votes (hrole ▸ hst)
      exact ⟨rs, hc, hj rs hjs⟩
    · exact absurd hl' (by simp [isLeader, hst])
    · exact absurd hf (by simp [isFollower, hst])
  · have hl₀ : s.isLeader = true := by
      rcases hr.role with hrole | ⟨hl₀, -⟩ | hf
      · rwa [isLeader, ← hrole]
      · exact hl₀
      · exact absurd hl (by rw [isLeader_eq_false_of_isFollower hf]; decide)
    obtain ⟨votes, rs, hc, hw, hjs⟩ := h.leader hl₀
    exact ⟨votes, rs, hc, hw, hj rs hjs⟩

/-- More grants in the network justify no less. -/
theorem mono {G' : Nat → Nat → Nat → Prop} (h : ElectInv G C s) (hG : ∀ v c T, G v c T → G' v c T) :
    ElectInv G' C s := by
  have hj : ∀ rs, Justified G s rs → Justified G' s rs := fun rs hjs v hv => (hjs v hv).imp_right (hG _ _ _)
  refine ⟨h.myId_ne_zero, fun votes hst => ?_, fun hl => ?_⟩
  · obtain ⟨rs, hc, hjs⟩ := h.candidate votes hst
    exact ⟨rs, hc, hj rs hjs⟩
  · obtain ⟨votes, rs, hc, hw, hjs⟩ := h.leader hl
    exact ⟨votes, rs, hc, hw, hj rs hjs⟩

end ElectInv

/-- A step of a server that keeps what its election rests on, whenever its configuration is `C`. -/
structure ElectStep (G : Nat → Nat → Nat → Prop) (C : Configuration) (s s' : Fsm) : Prop
    extends ConfigFrame C s s' where
  inv : s.FixedConfig C → ElectInv G C s → ElectInv G C s'

namespace ElectStep

instance : Std.Refl (ElectStep G C) := ⟨fun _ => ⟨refl_of (ConfigFrame C) _, fun _ => id⟩⟩

instance : IsTrans Fsm (ElectStep G C) :=
  ⟨fun _ _ _ h₁ h₂ => ⟨trans_of (ConfigFrame C) h₁.toConfigFrame h₂.toConfigFrame,
    fun hf hi => h₂.inv (h₁.fixedConfig hf) (h₁.inv hf hi)⟩⟩

/-- A handler that leaves the term and the vote alone and keeps the role. -/
theorem of_frame {s s' : Fsm} (hv : VoteFrame s s') (hr : RoleFrame C s s') : ElectStep G C s s' :=
  ⟨hr.toConfigFrame, fun _ hi => hi.of_role hr fun _ hj => hj.congr hr.myId hv.currentTerm hv.votedFor⟩

end ElectStep

theorem electStep_of_frame {α : Type} {x : FsmM α} (hv : Keeps VoteFrame x) (hr : Keeps (RoleFrame C) x) :
    Keeps (ElectStep G C) x :=
  fun s _ _ h => ElectStep.of_frame (hv s h) (hr s h)

/-- A field update that keeps both frames, as the clock's do. -/
theorem electStep_of_modify {f : Fsm → Fsm} (hv : ∀ s, VoteFrame s (f s)) (hr : ∀ s, RoleFrame C s (f s)) :
    Keeps (ElectStep G C) (modify f : FsmM PUnit) :=
  electStep_of_frame (keeps_modify hv) (keeps_modify hr)

/-! ### Votes -/

/-- `request_vote` keeps the term, and changes the vote only of a server that voted for the candidate or not at
all. -/
theorem requestVote_votedFor (src : Nat) (req : VoteRequest) :
    Keeps (fun s s' : Fsm => s'.currentTerm = s.currentTerm ∧
      (s'.votedFor = s.votedFor ∨ s.votedFor = src ∨ s.votedFor = 0)) (requestVote src req) := by
  have hframe := fun m (hm : castVote (src, m) = none) => (sendTo_voteFrame src m hm).mono
    fun s s' (h : VoteFrame s s') => (⟨h.currentTerm, .inl h.votedFor⟩ :
      s'.currentTerm = s.currentTerm ∧ (s'.votedFor = s.votedFor ∨ s.votedFor = src ∨ s.votedFor = 0))
  unfold requestVote
  dsimp only
  refine keeps_get_bind fun s => ?_
  split
  · exact keeps_throw_bind _ _ s
  · split
    · rename_i hgrant
      split
      · -- The grant of a real vote.
        rename_i hreal
        have hpre : req.isPrevote = false := by simpa using hreal
        intro u s' h
        obtain ⟨_, s₁, hs, hsend⟩ := run_bind_eq_ok.1 h
        rw [run_set_eq_ok] at hs
        subst hs
        rw [sendTo, run_modify_eq_ok] at hsend
        subst hsend
        simp only [hpre, Bool.false_and, Bool.or_false, Bool.and_eq_true, Bool.or_eq_true, beq_iff_eq]
          at hgrant
        refine ⟨rfl, .inr ?_⟩
        rcases hgrant.1 with h | h
        · exact .inl h
        · exact .inr h.1
      · rename_i hreal
        have hpre : req.isPrevote = true := by simpa using hreal
        exact hframe _ (castVote_voteReply_eq_none (.inr hpre)) s
    · exact hframe _ (castVote_voteReply_eq_none (.inl rfl)) s

/-- A server that holds its vote for itself grants no vote to another, so whatever it counted stays justified. -/
theorem requestVote_electStep (src : Nat) (req : VoteRequest) {s : Fsm} (hsrc : src ≠ s.myId) :
    KeepsFrom (ElectStep G C) s (requestVote src req) := by
  intro u s' h
  have hr := requestVote_roleFrame (C := C) src req s h
  obtain ⟨ht, hv⟩ := requestVote_votedFor src req s h
  refine ⟨hr.toConfigFrame, fun _ hi => hi.of_role hr fun rs hj v hmem => ?_⟩
  rcases hj v hmem with ⟨hvm, hself⟩ | hg
  · rcases hv with hv | hv | hv
    · exact .inl ⟨hvm.trans hr.myId.symm, by rw [hv, hself, hr.myId]⟩
    · exact absurd (hself.symm.trans hv) (Ne.symm hsrc)
    · exact absurd (hself.symm.trans hv) hi.myId_ne_zero
  · exact .inr (by rw [hr.myId, ht]; exact hg)

/-! ### Campaigns -/

/-- The granted replies among `rs` are the server's own; in a real election it holds its vote for itself. -/
def SelfVotes (isPrevote : Bool) (s : Fsm) (rs : List (Nat × Bool)) : Prop :=
  ∀ v, (v, true) ∈ rs → v = s.myId ∧ (isPrevote = false → s.votedFor = s.myId)

/-- The loop of `become_candidate` counts the candidate's own vote and no other. -/
theorem campaignLoop_ensures (term : Nat) (isPrevote isLeadershipTransfer : Bool) :
    ∀ (ids : List Nat) (v : Votes) (s : Fsm) (rs : List (Nat × Bool)), v.Counts C rs → SelfVotes isPrevote s rs →
      Ensures (fun v' s' => ∃ rs', v'.Counts C rs' ∧ SelfVotes isPrevote s' rs') s
        (campaignLoop term isPrevote isLeadershipTransfer ids v)
  | [], v, s, rs, hc, hs => ensures_pure ⟨rs, hc, hs⟩
  | id :: ids, v, s, rs, hc, hs => by
    unfold campaignLoop
    dsimp only
    refine ensures_bind fun s₀ s₁ hg => ?_
    obtain ⟨hs₀, hs₁⟩ := run_get_eq_ok.1 hg
    subst s₀ s₁
    split
    · rename_i hid
      have hc' := hc.registerVote id true
      -- The vote counted is the candidate's own, for itself.
      have hnew : ∀ {s' : Fsm}, s'.myId = s.myId → (isPrevote = false → s'.votedFor = s'.myId) →
          SelfVotes isPrevote s' rs → SelfVotes isPrevote s' (rs ++ [(id, true)]) := by
        intro s' hid' hvote hs' x hx
        rcases List.mem_append.1 hx with hx | hx
        · exact hs' x hx
        · obtain ⟨rfl, -⟩ := Prod.mk.inj (List.mem_singleton.1 hx)
          exact ⟨hid.trans hid'.symm, hvote⟩
      split
      · refine ensures_bind fun _ s₂ hset => ?_
        rw [run_set_eq_ok] at hset
        subst hset
        exact campaignLoop_ensures term isPrevote isLeadershipTransfer ids _ _ _ hc'
          (hnew rfl (fun _ => rfl) fun x hx => ⟨(hs x hx).1, fun _ => rfl⟩)
      · rename_i hpre
        exact campaignLoop_ensures term isPrevote isLeadershipTransfer ids _ _ _ hc'
          (hnew rfl (fun h => absurd h (by simpa using hpre)) hs)
    · refine ensures_bind fun _ s₂ hsend => ?_
      rw [sendTo, run_modify_eq_ok] at hsend
      subst hsend
      exact campaignLoop_ensures term isPrevote isLeadershipTransfer ids _ _ _ hc hs

/-- How `become_candidate` up to its last step ends: in a follower that gave up, or in a candidate whose count, when
`P` holds, is of an election on `C` and holds its own vote only; it reports a won election only on a won count. -/
def CampaignEnd (C : Configuration) (isPrevote : Bool) (P : Prop) (b : Bool) (s : Fsm) : Prop :=
  s.isFollower = true ∧ b = false ∨
    ∃ votes, s.state = .candidate votes isPrevote ∧ (b = true → votes.tallyVotes = .won) ∧
      (P → ∃ rs, votes.Counts C rs ∧ SelfVotes isPrevote s rs)

/-- The election proper of `become_candidate`: the count that ends it holds the candidate's own vote only. -/
private theorem election_ensures (isPrevote isLeadershipTransfer : Bool) (term : Nat) (votes : Votes) (s : Fsm)
    {P : Prop} (hP : P → votes.Counts C []) :
    Ensures (CampaignEnd C isPrevote P) s (do
      if !isPrevote then updateCurrentTerm term
      let votes ← campaignLoop term isPrevote isLeadershipTransfer votes.voters votes
      modify fun s => { s with state := .candidate votes isPrevote }
      return votes.tallyVotes == .won : FsmM Bool) := by
  have hcount : ∀ s₁ : Fsm, Ensures (CampaignEnd C isPrevote P) s₁ (do
      let votes ← campaignLoop term isPrevote isLeadershipTransfer votes.voters votes
      modify fun s => { s with state := .candidate votes isPrevote }
      return votes.tallyVotes == .won : FsmM Bool) := by
    intro s₁
    refine ensures_bind fun v' s₂ hloop => ensures_bind fun _ s₃ hmod => ensures_pure ?_
    rw [run_modify_eq_ok] at hmod
    subst hmod
    refine .inr ⟨v', rfl, fun hb => by simpa using hb, fun hp => ?_⟩
    obtain ⟨rs, hc', hs'⟩ :=
      campaignLoop_ensures term isPrevote isLeadershipTransfer _ votes s₁ [] (hP hp) (fun _ h => by cases h) hloop
    exact ⟨rs, hc', hs'⟩
  split
  · exact ensures_bind fun _ s₁ _ => hcount s₁
  · exact hcount s

theorem campaign_ensures (isPrevote isLeadershipTransfer : Bool) (rnd : Nat) (s : Fsm) :
    Ensures (CampaignEnd C isPrevote (s.log.getConfiguration = C)) s (campaign isPrevote isLeadershipTransfer rnd) := by
  unfold campaign
  dsimp only
  refine ensures_bind fun s₀ s₁ hg => ?_
  obtain ⟨hs₀, hs₁⟩ := run_get_eq_ok.1 hg
  subst s₀ s₁
  -- The count starts from the votes of the configuration in force, which the state written does not change.
  simp only [apply_ite Fsm.log, ite_self]
  refine ensures_bind fun _ _ _ => ensures_bind fun _ _ _ => ensures_bind fun _ s₃ _ =>
    ensures_bind fun s₄ s₅ hg => ?_
  obtain ⟨hs₄, hs₅⟩ := run_get_eq_ok.1 hg
  subst s₄ s₅
  have hgive : Ensures (CampaignEnd C isPrevote (s.log.getConfiguration = C)) s₃ (do becomeFollower 0; pure false) :=
    ensures_bind fun _ s' h => ensures_pure (.inl ⟨becomeFollower_isFollower 0 _ h, rfl⟩)
  have hP : s.log.getConfiguration = C → (Votes.ofConfiguration s.log.getConfiguration).Counts C [] :=
    fun hcfg => hcfg ▸ Votes.counts_ofConfiguration C
  split
  · split
    · exact hgive
    · split
      · split
        · exact hgive
        · exact election_ensures isPrevote isLeadershipTransfer _ _ s₃ hP
      · exact ensures_throw_bind _ _
  · exact election_ensures isPrevote isLeadershipTransfer _ _ s₃ hP

theorem campaign_configFrame (isPrevote isLeadershipTransfer : Bool) (rnd : Nat) :
    Keeps (ConfigFrame C) (campaign isPrevote isLeadershipTransfer rnd) := by
  have hrole := fun {α : Type} {x : FsmM α} (h : Keeps (RoleFrame C) x) => h.mono fun _ _ h => h.toConfigFrame
  unfold campaign
  dsimp only
  refine keeps_get_bind fun s => keepsFrom_set_bind (ConfigFrame.of_view (by split_ifs <;> rfl)) ?_
  refine (Keeps.bind (hrole (resetElectionTimeout_roleFrame rnd)) fun _ =>
    Keeps.bind (keeps_modify fun _ => ConfigFrame.of_view (by rfl)) fun _ => Keeps.get_bind fun s => ?_) _
  have hgive := Keeps.bind (hrole (becomeFollower_roleFrame 0)) fun _ => keeps_pure (R := ConfigFrame C) false
  have helect : ∀ term (votes : Votes), Keeps (ConfigFrame C) (do
      if !isPrevote then updateCurrentTerm term
      let votes ← campaignLoop term isPrevote isLeadershipTransfer votes.voters votes
      modify fun s => { s with state := .candidate votes isPrevote }
      return votes.tallyVotes == .won : FsmM Bool) := fun term votes =>
    Keeps.ite_seq (hrole (updateCurrentTerm_roleFrame term)) (Keeps.bind
      (hrole (campaignLoop_roleFrame term isPrevote isLeadershipTransfer _ _)) fun _ =>
        Keeps.bind (keeps_modify fun _ => ConfigFrame.of_view (by rfl)) fun _ => keeps_pure _)
  refine Keeps.ite (Keeps.ite hgive ?_) (helect _ _)
  split
  · exact Keeps.ite hgive (helect _ _)
  · exact keeps_throw_bind _ _

/-- A campaign leaves a follower, or a candidate whose count holds its own vote only. -/
theorem campaign_electStep (isPrevote isLeadershipTransfer : Bool) (rnd : Nat) :
    Keeps (ElectStep G C) (campaign isPrevote isLeadershipTransfer rnd) := by
  intro s b s' h
  have hc := campaign_configFrame (C := C) isPrevote isLeadershipTransfer rnd s h
  refine ⟨hc, fun hf hi => ?_⟩
  have hid : s'.myId ≠ 0 := hc.myId ▸ hi.myId_ne_zero
  rcases campaign_ensures isPrevote isLeadershipTransfer rnd s h with ⟨hfol, -⟩ | ⟨votes, hst, -, hcnt⟩
  · exact ElectInv.of_follower hid hfol
  · obtain ⟨rs, hcv, hself⟩ := hcnt hf.log.getConfiguration_eq
    refine ⟨hid, fun votes' hst' => ?_, fun hl => absurd hl (by simp [isLeader, hst])⟩
    rw [hst] at hst'
    obtain ⟨rfl, rfl⟩ := Role.candidate.inj hst'
    exact ⟨rs, hcv, fun v hv => .inl ⟨(hself v hv).1, (hself v hv).2 rfl⟩⟩

theorem becomeLeader_configFrame : Keeps (ConfigFrame C) becomeLeader := by
  unfold becomeLeader
  refine keeps_get_bind fun s => ?_
  split
  · exact keeps_throw_bind _ _ s
  · refine keepsFrom_set_bind (ConfigFrame.of_view rfl) ?_
    exact (Keeps.bind ((addEntry_roleFrame rfl).mono fun _ _ h => h.toConfigFrame) fun _ => Keeps.get_bind fun _ =>
      Keeps.bind (Keeps.of_eq leaderState_readOnly) fun _ => keeps_modify fun _ => ConfigFrame.of_view (by rfl)) _

/-- `become_leader` on a won count: the leader keeps the votes it won with. -/
theorem becomeLeader_electStep {s : Fsm} {votes : Votes} (hs : s.state = .candidate votes false)
    (hw : votes.tallyVotes = .won) : KeepsFrom (ElectStep G C) s becomeLeader := by
  intro u s' h
  have hv := becomeLeader_voteFrame s h
  have hc := becomeLeader_configFrame (C := C) s h
  have hl := (becomeLeader_eq_ok h).1
  refine ⟨hc, fun _ hi => ⟨hc.myId ▸ hi.myId_ne_zero, fun votes' hst => absurd hl (by simp [isLeader, hst]),
    fun _ => ?_⟩⟩
  obtain ⟨rs, hcnt, hj⟩ := hi.candidate votes hs
  exact ⟨votes, rs, hcnt, hw, hj.congr hc.myId hv.currentTerm hv.votedFor⟩

/-- A campaign that reports a won election ends in a candidate with a won count. -/
theorem campaign_won {isPrevote isLeadershipTransfer : Bool} {rnd : Nat} {s s' : Fsm}
    (h : (campaign isPrevote isLeadershipTransfer rnd).run s = .ok (true, s')) :
    ∃ votes, s'.state = .candidate votes isPrevote ∧ votes.tallyVotes = .won := by
  rcases campaign_ensures (C := s.log.getConfiguration) isPrevote isLeadershipTransfer rnd s h with
    ⟨-, hb⟩ | ⟨votes, hst, hw, -⟩
  · cases hb
  · exact ⟨votes, hst, hw rfl⟩

theorem becomeCandidate_electStep (isPrevote isLeadershipTransfer : Bool) (rnd : Nat) :
    Keeps (ElectStep G C) (becomeCandidate isPrevote isLeadershipTransfer rnd) := by
  unfold becomeCandidate
  intro s
  refine KeepsFrom.bind (campaign_electStep isPrevote isLeadershipTransfer rnd s) fun b s₁ h₁ => ?_
  split
  · rename_i hb
    obtain ⟨votes, hst, hw⟩ := campaign_won (hb ▸ h₁)
    split
    · -- A won pre-vote round: the real election follows.
      refine KeepsFrom.bind (campaign_electStep false false rnd s₁) fun b' s₂ h₂ => ?_
      split
      · rename_i hb'
        obtain ⟨votes', hst', hw'⟩ := campaign_won (hb' ▸ h₂)
        exact becomeLeader_electStep hst' hw'
      · exact keeps_pure _ s₂
    · rename_i hpre
      rw [Bool.not_eq_true] at hpre
      exact becomeLeader_electStep (hpre ▸ hst) hw
  · exact keeps_pure _ s₁

/-- `request_vote_reply` counts one reply: a grant it counts in a real election is one the network holds. -/
theorem requestVoteReply_electStep (src : Nat) (reply : VoteReply) (rnd : Nat) {s : Fsm}
    (hg : ∀ votes, s.state = .candidate votes false → reply.voteGranted = true → reply.isPrevote = false →
      G src s.myId s.currentTerm) :
    KeepsFrom (ElectStep G C) s (requestVoteReply src reply rnd) := by
  unfold requestVoteReply
  refine keepsFrom_get_bind ?_
  split
  · rename_i votes isPrevote hst
    dsimp only
    split
    · exact keeps_pure _ s
    · rename_i hpre
      have hpre' : isPrevote = reply.isPrevote := by simpa using hpre
      -- The count with the reply in it.
      refine keepsFrom_set_bind ⟨⟨rfl, fun hf => ⟨hf.log, hf.messages, hf.outputMessages⟩⟩,
        fun _ hi => ⟨hi.myId_ne_zero, fun votes' hst' => ?_, fun hl => absurd hl (by simp [isLeader])⟩⟩ ?_
      · obtain ⟨rfl, rfl⟩ := Role.candidate.inj hst'
        obtain ⟨rs, hc, hj⟩ := hi.candidate votes hst
        refine ⟨rs ++ [(src, reply.voteGranted)], hc.registerVote _ _, fun v hv => ?_⟩
        rcases List.mem_append.1 hv with hv | hv
        · exact hj v hv
        · obtain ⟨rfl, hgr⟩ := Prod.mk.inj (List.mem_singleton.1 hv)
          exact .inr (hg votes hst hgr.symm hpre'.symm)
      · split
        · exact keeps_pure _ _
        · rename_i hwon
          split
          · exact becomeCandidate_electStep false false rnd _
          · rename_i hreal
            rw [Bool.not_eq_true] at hreal
            exact becomeLeader_electStep (by rw [hreal]) hwon
        · exact electStep_of_frame (becomeFollower_voteFrame 0) (becomeFollower_roleFrame 0) _
  · exact keeps_throw _ s

/-! ### Messages, ticks and output -/

theorem dispatch_electStep (hC : C.isJoint = false) {src : Nat} {msg : RpcMessage} (rnd : Nat) {s : Fsm}
    (hsrc : src ≠ s.myId) (hmsg : msg.FixedConfig C)
    (hrep : ∀ r votes, msg = .voteReply r → s.state = .candidate votes false → r.voteGranted = true →
      r.isPrevote = false → G src s.myId s.currentTerm) :
    KeepsFrom (ElectStep G C) s (dispatch src msg rnd) := by
  unfold dispatch
  refine keepsFrom_get_bind ?_
  -- One goal per arm of the match on the role and the message; the role moves in the election handlers only.
  split
  · exact keeps_pure _ s
  · exact electStep_of_frame (appendEntriesReply_voteFrame _ _) (appendEntriesReply_roleFrame hC _ _) s
  · exact requestVote_electStep _ _ hsrc
  · exact electStep_of_frame (sendTo_voteFrame _ _ rfl) (sendTo_roleFrame _ (by trivial)) s
  · exact electStep_of_frame (installSnapshotReply_voteFrame _ _) (installSnapshotReply_roleFrame _ _) s
  · exact electStep_of_frame (handleReadQuorumReply_voteFrame _ _) (handleReadQuorumReply_roleFrame _ _) s
  · exact requestVote_electStep _ _ hsrc
  · rename_i m _
    exact requestVoteReply_electStep _ _ _ fun votes hst' => hrep m votes rfl hst'
  · exact electStep_of_frame (sendTo_voteFrame _ _ rfl) (sendTo_roleFrame _ (by trivial)) s
  · exact electStep_of_frame (maybeResendVoteRequest_voteFrame _) (maybeResendVoteRequest_roleFrame _) s
  · exact electStep_of_frame (appendEntries_voteFrame _ _) (appendEntries_roleFrame _ hmsg) s
  · exact requestVote_electStep _ _ hsrc
  · exact electStep_of_frame (Keeps.bind (applySnapshot_voteFrame _ _ _ _) fun _ => sendTo_voteFrame _ _ rfl)
      (Keeps.bind (applySnapshot_roleFrame hmsg _ _ _) fun _ => sendTo_roleFrame _ (by trivial)) s
  · exact becomeCandidate_electStep _ _ _ s
  · exact electStep_of_frame
      (Keeps.bind (advanceCommitIdx_voteFrame _) fun _ => Keeps.get_bind fun _ => sendTo_voteFrame _ _ rfl)
      (Keeps.bind (advanceCommitIdx_roleFrame _) fun _ => Keeps.get_bind fun _ => sendTo_roleFrame _ (by trivial)) s
  · exact keeps_pure _ s

/-- `step` on a message from the network, in which a granted real vote reply is a grant `G`. -/
theorem step_electStep (hC : C.isJoint = false) {src : Nat} {msg : RpcMessage} (rnd : Nat) {s : Fsm}
    (hmsg : msg.FixedConfig C)
    (hrep : ∀ r, msg = .voteReply r → r.voteGranted = true → r.isPrevote = false → G src s.myId r.currentTerm) :
    KeepsFrom (ElectStep G C) s (step src msg rnd) := by
  unfold step
  dsimp only
  refine keepsFrom_get_bind ?_
  split
  · exact keeps_throw_bind _ _ s
  rename_i hsrc
  split
  · -- A newer term: the server becomes a follower in it first, unless the message is a pre-vote.
    split_ifs with hq hign
    · exact keeps_pure _ s
    · refine KeepsFrom.bind (electStep_of_frame (becomeFollower_voteFrame _) (becomeFollower_roleFrame _) s)
        fun _ s₁ h₁ => ?_
      have hfol₁ := becomeFollower_isFollower _ s h₁
      have hid₁ := (becomeFollower_roleFrame (C := C) _ s h₁).myId
      refine KeepsFrom.bind (fun u s₂ h₂ => ?_) fun _ s₂ h₂ => ?_
      · -- A follower has counted nothing, whatever its term.
        have hr := updateCurrentTerm_roleFrame (C := C) _ s₁ h₂
        exact ⟨hr.toConfigFrame, fun _ hi => ElectInv.of_follower (hr.myId ▸ hi.myId_ne_zero) (hr.isFollower hfol₁)⟩
      · have hr := updateCurrentTerm_roleFrame (C := C) _ s₁ h₂
        refine dispatch_electStep hC rnd (by rw [hr.myId, hid₁]; exact hsrc) hmsg fun r votes _ hst => ?_
        exact absurd (hr.isFollower hfol₁) (by simp [isFollower, hst])
    · -- A granted real vote reply is not ignored.
      refine dispatch_electStep hC rnd hsrc hmsg fun r votes hr _ hgr hpre => ?_
      subst hr
      simp [hgr, hpre] at hign
  split
  · -- An older term: at most a refusal, and the message is not handled.
    have hreply : ∀ m : RpcMessage, castVote (src, m) = none → m.FixedConfig C →
        Keeps (ElectStep G C) (do sendTo src m; pure ()) := fun m hm hfix =>
      Keeps.bind (electStep_of_frame (sendTo_voteFrame src m hm) (sendTo_roleFrame src hfix)) fun _ =>
        keeps_pure ()
    split
    · exact hreply _ rfl (by trivial) s
    · exact hreply _ rfl (by trivial) s
    · exact hreply _ rfl (by trivial) s
    · exact Keeps.ite (hreply _ (castVote_voteReply_eq_none (.inl rfl)) (by trivial)) (keeps_pure _) s
    · exact Keeps.ite (Keeps.bind (electStep_of_frame (maybeResendVoteRequest_voteFrame _)
        (maybeResendVoteRequest_roleFrame _)) fun _ => keeps_pure _) (keeps_pure _) s
    · exact keeps_pure _ s
  · -- The current term: a message from its leader makes a candidate or a follower without a leader follow it.
    rename_i hnewer holder
    have hterm : msg.currentTerm = s.currentTerm := by omega
    have hd : ∀ s₁ : Fsm, s₁.myId = s.myId → s₁.currentTerm = s.currentTerm →
        KeepsFrom (ElectStep G C) s₁ (dispatch src msg rnd) := fun s₁ hid ht =>
      dispatch_electStep hC rnd (hid ▸ hsrc) hmsg fun r votes hr _ hgr hpre => by
        rw [hid, ht, ← hterm, hr]
        exact hrep r hr hgr hpre
    have hheard : ∀ s₁ : Fsm, s₁.myId = s.myId → s₁.currentTerm = s.currentTerm → KeepsFrom (ElectStep G C) s₁
        (do modify fun s : Fsm => { s with lastElectionTime := s.now }; dispatch src msg rnd) := fun s₁ hid ht =>
      KeepsFrom.bind (electStep_of_modify (fun _ => VoteFrame.of_view (by rfl))
        (fun _ => RoleFrame.of_view (by rfl)) s₁) fun _ s₂ h₂ => by
          rw [run_modify_eq_ok] at h₂
          subst h₂
          exact hd _ hid ht
    have hfollow : KeepsFrom (ElectStep G C) s (do
        becomeFollower src
        modify fun s : Fsm => { s with lastElectionTime := s.now }
        dispatch src msg rnd) :=
      KeepsFrom.bind (electStep_of_frame (becomeFollower_voteFrame src) (becomeFollower_roleFrame src) s)
        fun _ s₁ h₁ => hheard s₁ (becomeFollower_roleFrame (C := C) src s h₁).myId
          (becomeFollower_voteFrame src s h₁).currentTerm
    split
    iterate 3
      split
      · exact hfollow
      · exact keepsFrom_set_bind (ElectStep.of_frame (VoteFrame.of_view (by rfl))
          ⟨ConfigFrame.of_view (by rfl), .inr (.inr rfl)⟩) (hheard _ rfl rfl)
      · exact hheard s rfl rfl
    exact hd s rfl rfl

theorem tick_electStep (isAlive : Nat → Bool) (rnd : Nat) : Keeps (ElectStep G C) (tick isAlive rnd) := by
  unfold tick
  dsimp only
  refine Keeps.bind (electStep_of_modify (fun _ => VoteFrame.of_view (by rfl)) fun _ => RoleFrame.of_view (by rfl))
    fun _ => Keeps.get_bind fun s => ?_
  have hping := Keeps.get_bind (R := ElectStep G C) fun (s : Fsm) =>
    Keeps.ite (c := (s.isFollower && s.currentLeader == 0 && s.pingLeader) = true)
      (electStep_of_frame (sendPingMessages_voteFrame isAlive) (sendPingMessages_roleFrame isAlive)) (keeps_pure ())
  refine Keeps.ite (Keeps.bind (electStep_of_frame (tickLeader_voteFrame _) (tickLeader_roleFrame _)) fun _ => hping)
    (Keeps.ite ?_ ?_)
  · exact Keeps.bind (electStep_of_modify (fun _ => VoteFrame.of_view (by rfl)) fun _ => RoleFrame.of_view (by rfl))
      fun _ => hping
  · exact Keeps.ite (Keeps.bind (becomeCandidate_electStep _ _ _) fun _ => hping) hping

/-- `get_output()` hands out messages that carry no configuration but `C`, and leaves the term and the vote. -/
theorem getOutput_electStep (hC : C.isJoint = false) {s s' : Fsm} {o : FsmOutput}
    (h : getOutput.run s = .ok (o, s')) :
    ElectStep G C s s' ∧ (s.FixedConfig C → ∀ m ∈ o.messages, m.2.FixedConfig C) := by
  unfold getOutput at h
  obtain ⟨s0, s1, hg, h1⟩ := run_bind_eq_ok.1 h
  obtain ⟨rfl, rfl⟩ := run_get_eq_ok.1 hg
  obtain ⟨u, s₁, hflush, htake⟩ := run_bind_eq_ok.1 h1
  have hf := flushLeader_roleFrame (C := C) _ _ hflush
  have hv := flushLeader_voteFrame _ _ hflush
  obtain ⟨hmsgs, hterm, hvote⟩ := takeOutput_eq htake
  have hr := trans_of (RoleFrame C) hf (takeOutput_roleFrame hC _ _ htake)
  refine ⟨⟨hr.toConfigFrame, fun _ hi => hi.of_role hr fun _ hj =>
    hj.congr hr.myId (hterm.trans hv.currentTerm) (hvote.trans hv.votedFor)⟩, fun hfix => ?_⟩
  rw [hmsgs]
  exact (hf.fixedConfig hfix).messages

/-! ### Runs of one fsm -/

/-- The calls of a group whose configuration stays `C`: the messages it delivers carry no other, no entry added
holds one, and the snapshots hold `C`. -/
def Op.FixedConfig (C : Configuration) : Op → Prop
  | .step _ msg _ => msg.FixedConfig C
  | .addEntry data => data.config? = none
  | .applySnapshot snp _ _ _ => snp.config = C
  | _ => True

/-- One call of an entry point keeps what an election rests on, if every granted real vote reply it delivers is a
grant; what it hands out carries no configuration but `C`. -/
theorem Op.exec_electStep (hC : C.isJoint = false) {op : Op} (hop : op.FixedConfig C) {s s' : Fsm}
    {o : Option FsmOutput}
    (hrep : ∀ src msg rnd r, op = .step src msg rnd → msg = .voteReply r → r.voteGranted = true →
      r.isPrevote = false → G src s.myId r.currentTerm)
    (h : op.exec.run s = .ok (o, s')) :
    ElectStep G C s s' ∧ (s.FixedConfig C → ∀ out ∈ o.toList, ∀ m ∈ out.messages, m.2.FixedConfig C) := by
  -- Every entry point but `get_output` hands out nothing.
  have hnone : ∀ {α : Type} {x : FsmM α}, KeepsFrom (ElectStep G C) s x →
      (x >>= fun _ => pure none : FsmM (Option FsmOutput)).run s = .ok (o, s') →
        ElectStep G C s s' ∧ (s.FixedConfig C → ∀ out ∈ o.toList, ∀ m ∈ out.messages, m.2.FixedConfig C) := by
    intro α x hx hr
    obtain ⟨a, s₁, hxr, hp⟩ := run_bind_eq_ok.1 hr
    obtain ⟨rfl, rfl⟩ := run_pure_eq_ok.1 hp
    exact ⟨hx hxr, fun _ _ hout => by cases hout⟩
  cases op with
  | tick isAlive rnd => exact hnone (tick_electStep isAlive rnd s) h
  | step src msg rnd => exact hnone (step_electStep hC rnd hop fun r hr => hrep src msg rnd r rfl hr) h
  | addEntry data => exact hnone (electStep_of_frame (addEntry_voteFrame data) (addEntry_roleFrame hop) s) h
  | getOutput =>
    obtain ⟨out, s₁, hget, hp⟩ := run_bind_eq_ok.1 h
    obtain ⟨rfl, rfl⟩ := run_pure_eq_ok.1 hp
    obtain ⟨hs, hm⟩ := getOutput_electStep hC hget
    refine ⟨hs, fun hf out' hout => ?_⟩
    rw [Option.toList_some, List.mem_singleton] at hout
    exact hout ▸ hm hf
  | applySnapshot snp te tb isLocal =>
    exact hnone (electStep_of_frame (applySnapshot_voteFrame snp te tb isLocal)
      (applySnapshot_roleFrame hop te tb isLocal) s) h
  | transferLeadership timeout =>
    exact hnone (electStep_of_frame (transferLeadership_voteFrame timeout) (transferLeadership_roleFrame timeout) s) h
  | startReadBarrier requester =>
    exact hnone (electStep_of_frame (startReadBarrier_voteFrame requester)
      (startReadBarrier_roleFrame requester) s) h
  | pingLeader isAlive =>
    exact hnone (electStep_of_frame (pingLeaderOp_voteFrame isAlive) (pingLeaderOp_roleFrame isAlive) s) h
  | stop => exact hnone (electStep_of_frame stop_voteFrame stop_roleFrame s) h

/-- The constructor, on a log whose configuration is `C`: a follower, or a candidate with its own vote. -/
theorem create_electInv {myId term votedFor commitIdx rnd : Nat} {log : Log} {config : FsmConfig} {s₀ : Fsm}
    (hlog : log.FixedConfig C) (h : create myId term votedFor log commitIdx config rnd = .ok s₀) :
    s₀.myId = myId ∧ s₀.FixedConfig C ∧ ElectInv G C s₀ := by
  unfold create at h
  dsimp only at h
  by_cases hid : myId = 0
  · rw [if_pos hid, except_throw_bind] at h
    exact absurd h except_throw_ne_ok
  rw [if_neg hid] at h
  obtain ⟨⟨u, s₁⟩, hstart, hret⟩ := except_bind_eq_ok.1 h
  cases except_pure_eq_ok.1 hret
  have hs := (Keeps.ite (becomeCandidate_electStep (G := G) (C := C) _ _ _)
    (electStep_of_frame (resetElectionTimeout_voteFrame _) (resetElectionTimeout_roleFrame _))) _ hstart
  refine ⟨hs.myId, hs.fixedConfig ?hf, hs.inv ?hf (ElectInv.of_follower hid rfl)⟩
  -- The server starts with nothing to send.
  exact ⟨hlog, fun _ hm => (List.not_mem_nil hm).elim, fun _ hm => (List.not_mem_nil hm).elim⟩

end Fsm

end Scylla.Raft
