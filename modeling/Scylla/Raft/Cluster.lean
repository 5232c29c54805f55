import Mathlib
import Scylla.Raft.Fsm.Mandate

/-!
# Election safety

`raft/fsm.cc` run by a group of servers whose configuration stays `C`, a configuration with one voter set.  Each
server is an fsm, created by the constructor with its id on a log of configuration `C`; the network holds every
message handed out so far.  A step of the group is one call of an entry point of one server: a message sent to it
is delivered (any number of times, in any order, or never), or its own server calls it (a tick, an entry without a
configuration, a snapshot of `C`, a read barrier, the output handed out).

At most one server leads in a term (`election_safety`).  A leader won its term with a quorum of `C`'s voters, each
of which voted for it: itself by its own vote, the others by a granted vote reply that the network holds
(`Fsm.ElectInv`).  Two quorums share a voter (`Ballots.exists_mem_of_majorities`), and a voter casts one vote in a
term, its own included (`Fsm.VoteInv`).
-/

namespace Scylla.Raft

open StateExcept Fsm

/-- The servers of a group by id, and every message they have handed out, as (sender, addressee, message). -/
structure Cluster where
  servers : Nat → Option Fsm
  sent : List (Nat × Nat × RpcMessage)

namespace Cluster

variable {C : Configuration} {w : Cluster}

/-- What server `i` has handed out, with the addressees. -/
def sentBy (w : Cluster) (i : Nat) : List (Nat × RpcMessage) :=
  (w.sent.filter fun e => e.1 == i).map (·.2)

/-- Voter `v` granted its vote of term `T` to `c` in a real election. -/
def Grants (w : Cluster) (v c T : Nat) : Prop :=
  (v, c, .voteReply { currentTerm := T, voteGranted := true, isPrevote := false }) ∈ w.sent

/-- Server `i` is now `s`, and has handed out `o`. -/
def update (w : Cluster) (i : Nat) (s : Fsm) (o : Option FsmOutput) : Cluster :=
  ⟨Function.update w.servers i (some s), w.sent ++ (o.toList.flatMap (·.messages)).map fun m => (i, m)⟩

/-- The group at the start: nothing sent, and each server created with its id on a log of configuration `C`. -/
def Init (C : Configuration) (w : Cluster) : Prop :=
  w.sent = [] ∧ ∀ i s, w.servers i = some s →
    ∃ term votedFor commitIdx rnd log config, log.FixedConfig C ∧ create i term votedFor log commitIdx config rnd = .ok s

/-- One step of the group. -/
inductive Step (C : Configuration) : Cluster → Cluster → Prop where
  /-- Server `i` handles a message sent to it. -/
  | deliver {w : Cluster} {i src rnd : Nat} {msg : RpcMessage} {s s' : Fsm} {o : Option FsmOutput}
      (hs : w.servers i = some s) (hm : (src, i, msg) ∈ w.sent)
      (h : (Op.step src msg rnd).exec.run s = .ok (o, s')) : Step C w (w.update i s' o)
  /-- Server `i` is called by its own server, with no entry or snapshot of another configuration. -/
  | call {w : Cluster} {i : Nat} {op : Op} {s s' : Fsm} {o : Option FsmOutput}
      (hs : w.servers i = some s) (hop : op.FixedConfig C) (hlocal : ∀ src msg rnd, op ≠ .step src msg rnd)
      (h : op.exec.run s = .ok (o, s')) : Step C w (w.update i s' o)

theorem update_servers_self (w : Cluster) (i : Nat) (s : Fsm) (o : Option FsmOutput) :
    (w.update i s o).servers i = some s := by
  simp [update]

theorem update_servers_of_ne {i j : Nat} (h : j ≠ i) (s : Fsm) (o : Option FsmOutput) :
    (w.update i s o).servers j = w.servers j := by
  simp [update, h]

/-- What a step hands out is its server's. -/
theorem sentBy_update (i : Nat) (s : Fsm) (o : Option FsmOutput) (j : Nat) :
    (w.update i s o).sentBy j = w.sentBy j ++ if j = i then o.toList.flatMap (·.messages) else [] := by
  simp only [sentBy, update, List.filter_append, List.map_append, List.filter_map]
  congr 1
  split_ifs with h
  · subst h
    simp [Function.comp_def]
  · simp [Function.comp_def, Ne.symm h]

theorem Grants.update {v c T : Nat} (hg : w.Grants v c T) (i : Nat) (s : Fsm) (o : Option FsmOutput) :
    (w.update i s o).Grants v c T :=
  List.mem_append_left _ hg

/-- A granted real vote reply to a server is a vote cast by its sender. -/
theorem Grants.mem_votesCast {v c T : Nat} (hg : w.Grants v c T) (hc : c ≠ 0) : (c, T) ∈ votesCast (w.sentBy v) :=
  List.mem_filterMap.2 ⟨_, List.mem_map.2 ⟨_, List.mem_filter.2 ⟨hg, beq_self_eq_true v⟩, rfl⟩, by
    simp [castVote, hc]⟩

/-! ### The invariant -/

/-- What every reachable group satisfies: the messages carry no configuration but `C` and come from its servers;
each server knows its id, keeps its configuration `C`, has cast its votes once per term, and has been elected by
the votes it counted. -/
structure Inv (C : Configuration) (w : Cluster) : Prop where
  fixedConfig : ∀ e ∈ w.sent, e.2.2.FixedConfig C
  sender : ∀ e ∈ w.sent, (w.servers e.1).isSome
  server : ∀ i s, w.servers i = some s →
    s.myId = i ∧ s.FixedConfig C ∧ VoteInv (w.sentBy i) s ∧ ElectInv w.Grants C s

theorem Inv.init (h : Init C w) : Inv C w := by
  obtain ⟨hsent, hcreate⟩ := h
  refine ⟨fun e he => (List.not_mem_nil (hsent ▸ he)).elim, fun e he => (List.not_mem_nil (hsent ▸ he)).elim,
    fun i s hs => ?_⟩
  obtain ⟨term, votedFor, commitIdx, rnd, log, config, hlog, hc⟩ := hcreate i s hs
  have hnil : w.sentBy i = [] := by simp [sentBy, hsent]
  obtain ⟨hid, hfix, hei⟩ := create_electInv (G := w.Grants) hlog hc
  refine ⟨hid, hfix, ?_, hei⟩
  -- Nothing sent yet: no vote cast.
  have hnone : Ballots.Consistent 0 (votesCast []) term votedFor := Ballots.Consistent.nil 0 term votedFor
  rw [hnil]
  exact (create_voteInv hnone hc).2

/-- A step of server `i` keeps the invariant when it keeps the server's own part. -/
theorem Inv.update (hw : Inv C w) {i : Nat} {s s' : Fsm} {o : Option FsmOutput} (hs : w.servers i = some s)
    (hstep : ElectStep w.Grants C s s')
    (hout : s.FixedConfig C → ∀ out ∈ o.toList, ∀ m ∈ out.messages, m.2.FixedConfig C)
    (hvote : VoteInv (w.sentBy i ++ o.toList.flatMap (·.messages)) s') : Inv C (w.update i s' o) := by
  obtain ⟨hid, hfix, -, hei⟩ := hw.server i s hs
  refine ⟨fun e he => ?_, fun e he => ?_, fun j t ht => ?_⟩
  · rcases List.mem_append.1 he with he | he
    · exact hw.fixedConfig e he
    · obtain ⟨m, hm, rfl⟩ := List.mem_map.1 he
      obtain ⟨out, hout', hm'⟩ := List.mem_flatMap.1 hm
      exact hout hfix out hout' m hm'
  · rcases List.mem_append.1 he with he | he
    · by_cases hj : e.1 = i
      · rw [hj, update_servers_self]
        rfl
      · rw [update_servers_of_ne hj]
        exact hw.sender e he
    · obtain ⟨m, -, rfl⟩ := List.mem_map.1 he
      rw [update_servers_self]
      rfl
  · -- The server that stepped is `s'`; the others are as they were, and the new messages are not theirs.
    by_cases hj : j = i
    · subst hj
      rw [update_servers_self, Option.some.injEq] at ht
      subst ht
      refine ⟨hstep.myId.trans hid, hstep.fixedConfig hfix, ?_,
        (hstep.inv hfix hei).mono fun _ _ _ hg => hg.update _ _ _⟩
      rw [sentBy_update, if_pos rfl]
      exact hvote
    · rw [update_servers_of_ne hj] at ht
      obtain ⟨hid', hfix', hvi', hei'⟩ := hw.server j t ht
      refine ⟨hid', hfix', ?_, hei'.mono fun _ _ _ hg => hg.update _ _ _⟩
      rw [sentBy_update, if_neg hj, List.append_nil]
      exact hvi'

/-- The step lemma. -/
theorem Inv.step (hC : C.isJoint = false) {w' : Cluster} (hw : Inv C w) (h : Step C w w') : Inv C w' := by
  cases h with
  | @deliver i src rnd msg s s' o hs hm h =>
    obtain ⟨hid, -, hvi, -⟩ := hw.server i s hs
    -- A granted real vote reply delivered is one that the network holds.
    have hrep : ∀ src' msg' rnd' (r : VoteReply), Op.step src msg rnd = .step src' msg' rnd' →
        msg' = .voteReply r → r.voteGranted = true → r.isPrevote = false → w.Grants src' s.myId r.currentTerm := by
      rintro src' msg' rnd' ⟨T, granted, prevote⟩ hop rfl hg hp
      cases hop
      dsimp only at hg hp
      subst hg hp
      rw [hid]
      exact hm
    have hmsg : (Op.step src msg rnd).FixedConfig C := hw.fixedConfig _ hm
    obtain ⟨hstep, hout⟩ := Op.exec_electStep hC hmsg hrep h
    exact hw.update hs hstep hout (Op.exec_voteInv h hvi).2
  | @call i op s s' o hs hop hlocal h =>
    obtain ⟨-, -, hvi, -⟩ := hw.server i s hs
    obtain ⟨hstep, hout⟩ :=
      Op.exec_electStep hC hop (fun src msg rnd _ hst => absurd hst (hlocal src msg rnd)) h
    exact hw.update hs hstep hout (Op.exec_voteInv h hvi).2

/-- The run lemma. -/
theorem Inv.reachable (hC : C.isJoint = false) {w₀ : Cluster} (h₀ : Init C w₀)
    (hr : Relation.ReflTransGen (Step C) w₀ w) : Inv C w := by
  induction hr with
  | refl => exact Inv.init h₀
  | tail _ hs ih => exact ih.step hC hs

/-- A voter grants its vote of a term to one server. -/
theorem Inv.grants_unique (hw : Inv C w) {v c c' T : Nat} (hg : w.Grants v c T) (hg' : w.Grants v c' T)
    (hc : c ≠ 0) (hc' : c' ≠ 0) : c = c' := by
  obtain ⟨sv, hsv⟩ := Option.isSome_iff_exists.1 (hw.sender _ hg)
  obtain ⟨-, -, hvi, -⟩ := hw.server v sv hsv
  have hmem := fun {c T} (h : (c, T) ∈ votesCast (w.sentBy v)) =>
    (votesCast_append _ _).symm ▸ List.mem_append_left (votesCast sv.messages) h
  exact hvi.ballots.unique c c' T (hmem (hg.mem_votesCast hc)) (hmem (hg'.mem_votesCast hc'))

/-- A voter's grant in its term is for the server it voted for. -/
theorem Inv.grants_votedFor (hw : Inv C w) {v c : Nat} {sv : Fsm} (hsv : w.servers v = some sv)
    (hg : w.Grants v c sv.currentTerm) (hc : c ≠ 0) : c = sv.votedFor := by
  obtain ⟨-, -, hvi, -⟩ := hw.server v sv hsv
  refine hvi.ballots.current c ?_
  rw [votesCast_append]
  exact List.mem_append_left _ (hg.mem_votesCast hc)

end Cluster

open Cluster in
/-- Election safety: in every group reachable from its start, with the configuration `C` of one voter set, two
servers that lead in one term are the same server. -/
theorem election_safety {C : Configuration} (hC : C.isJoint = false) {w₀ w : Cluster} (h₀ : Init C w₀)
    (hr : Relation.ReflTransGen (Step C) w₀ w) {i j : Nat} {si sj : Fsm} (hi : w.servers i = some si)
    (hj : w.servers j = some sj) (hli : si.isLeader = true) (hlj : sj.isLeader = true)
    (ht : si.currentTerm = sj.currentTerm) : i = j := by
  have hw := Inv.reachable hC h₀ hr
  obtain ⟨hidi, -, -, hei⟩ := hw.server i si hi
  obtain ⟨hidj, -, -, hej⟩ := hw.server j sj hj
  have hi0 : i ≠ 0 := hidi ▸ hei.myId_ne_zero
  have hj0 : j ≠ 0 := hidj ▸ hej.myId_ne_zero
  -- Each won with a quorum of the voters of `C`; the two quorums share a voter `x`.
  obtain ⟨vi, rsi, hci, hwi, hji⟩ := hei.leader hli
  obtain ⟨vj, rsj, hcj, hwj, hjj⟩ := hej.leader hlj
  obtain ⟨Wi, hndi, hWi, hleni⟩ := hci.exists_quorum hwi
  obtain ⟨Wj, hndj, hWj, hlenj⟩ := hcj.exists_quorum hwj
  obtain ⟨x, hxi, hxj⟩ := Ballots.exists_mem_of_majorities hndi hndj (fun x hx => (hWi x hx).1)
    (fun x hx => (hWj x hx).1) hleni hlenj
  -- `x` voted for both in the term: by its own vote or by a grant.
  have hvi := hji x (hWi x hxi).2
  have hvj := hjj x (hWj x hxj).2
  rw [hidi] at hvi
  rw [hidj, ← ht] at hvj
  rcases hvi with ⟨hxi', hvote⟩ | hgi <;> rcases hvj with ⟨hxj', hvote'⟩ | hgj
  · exact hxi'.symm.trans hxj'
  · -- `i` voted for itself and granted `j` its vote of the term.
    subst hxi'
    exact (hvote ▸ hw.grants_votedFor hi hgj hj0).symm
  · subst hxj'
    exact hvote' ▸ hw.grants_votedFor hj (ht ▸ hgi) hi0
  · exact hw.grants_unique hgi hgj hi0 hj0

open Cluster in
/-- A group of two voters elects server 1: created as the candidate of fast bootstrap, it hands out its vote
request, server 2 grants it and hands out the grant, and server 1 becomes leader when the grant is delivered. -/
theorem election_safety_two_voters :
    ∃ (w₀ w : Cluster) (s : Fsm), Init { current := [⟨1, true⟩, ⟨2, true⟩] } w₀ ∧
      Relation.ReflTransGen (Step { current := [⟨1, true⟩, ⟨2, true⟩] }) w₀ w ∧ w.servers 1 = some s ∧
      s.isLeader = true ∧ (1 : Nat) = 1 := by
  -- Server 1 starts as the candidate of fast bootstrap; its vote request goes to server 2, whose grant comes back.
  have hok : (Fsm.create 1 0 0 ⟨{ config := { current := [⟨1, true⟩, ⟨2, true⟩] } }, [], 1, 0, 0, 0, 0, 0⟩ 0
        { appendRequestThreshold := 1, maxLogSize := 1, enablePrevoting := false, fastBootstrapSeed := some 0 } 0 >>=
      fun s₁ => Fsm.create 2 0 0 ⟨{ config := { current := [⟨1, true⟩, ⟨2, true⟩] } }, [], 1, 0, 0, 0, 0, 0⟩ 0
        { appendRequestThreshold := 1, maxLogSize := 1, enablePrevoting := false, fastBootstrapSeed := some 0 } 0 >>=
      fun s₂ => Op.getOutput.exec.run s₁ >>= fun r₁ =>
      (Op.step 1 (.voteRequest ⟨1, 0, 0, false, false⟩) 0).exec.run s₂ >>= fun r₂ =>
      Op.getOutput.exec.run r₂.2 >>= fun r₃ =>
      (Op.step 2 (.voteReply ⟨1, true, false⟩) 0).exec.run r₁.2 >>= fun r₄ =>
      pure (r₁.1.toList.flatMap (·.messages), r₃.1.toList.flatMap (·.messages), r₄.2.isLeader)) =
    .ok ([(2, .voteRequest ⟨1, 0, 0, false, false⟩)], [(1, .voteReply ⟨1, true, false⟩)], true) := by
    decide +kernel
  obtain ⟨s₁, hs₁, h⟩ := except_bind_eq_ok.1 hok
  obtain ⟨s₂, hs₂, h⟩ := except_bind_eq_ok.1 h
  obtain ⟨r₁, hr₁, h⟩ := except_bind_eq_ok.1 h
  obtain ⟨r₂, hr₂, h⟩ := except_bind_eq_ok.1 h
  obtain ⟨r₃, hr₃, h⟩ := except_bind_eq_ok.1 h
  obtain ⟨r₄, hr₄, h⟩ := except_bind_eq_ok.1 h
  simp only [except_pure_eq_ok, Prod.mk.injEq] at h
  obtain ⟨hm₁, hm₃, hl⟩ := h
  let w₀ : Cluster := ⟨fun i => if i = 1 then some s₁ else if i = 2 then some s₂ else none, []⟩
  have hinit : Init { current := [⟨1, true⟩, ⟨2, true⟩] } w₀ := by
    refine ⟨rfl, fun i s hs => ?_⟩
    by_cases h1 : i = 1
    · subst h1
      cases hs
      exact ⟨0, 0, 0, 0, _, _, ⟨rfl, fun e he => by cases he⟩, hs₁⟩
    by_cases h2 : i = 2
    · subst h2
      cases hs
      exact ⟨0, 0, 0, 0, _, _, ⟨rfl, fun e he => by cases he⟩, hs₂⟩
    · simp [w₀, h1, h2] at hs
  have step₁ : Step { current := [⟨1, true⟩, ⟨2, true⟩] } w₀ (w₀.update 1 r₁.2 r₁.1) :=
    .call rfl (by trivial) (fun _ _ _ h => by cases h) hr₁
  have step₂ : Step { current := [⟨1, true⟩, ⟨2, true⟩] } (w₀.update 1 r₁.2 r₁.1)
      ((w₀.update 1 r₁.2 r₁.1).update 2 r₂.2 r₂.1) := by
    refine .deliver ((update_servers_of_ne (by decide) _ _).trans rfl) ?_ hr₂
    show _ ∈ [] ++ List.map _ (r₁.1.toList.flatMap (·.messages))
    rw [hm₁]
    simp
  have step₃ : Step { current := [⟨1, true⟩, ⟨2, true⟩] } ((w₀.update 1 r₁.2 r₁.1).update 2 r₂.2 r₂.1)
      (((w₀.update 1 r₁.2 r₁.1).update 2 r₂.2 r₂.1).update 2 r₃.2 r₃.1) :=
    .call (update_servers_self _ _ _ _) (by trivial) (fun _ _ _ h => by cases h) hr₃
  have step₄ : Step { current := [⟨1, true⟩, ⟨2, true⟩] }
      (((w₀.update 1 r₁.2 r₁.1).update 2 r₂.2 r₂.1).update 2 r₃.2 r₃.1)
      ((((w₀.update 1 r₁.2 r₁.1).update 2 r₂.2 r₂.1).update 2 r₃.2 r₃.1).update 1 r₄.2 r₄.1) := by
    refine .deliver ?_ ?_ hr₄
    · rw [update_servers_of_ne (by decide), update_servers_of_ne (by decide), update_servers_self]
    · show _ ∈ _ ++ List.map _ (r₃.1.toList.flatMap (·.messages))
      rw [hm₃]
      simp
  have hr := Relation.ReflTransGen.tail (Relation.ReflTransGen.tail (Relation.ReflTransGen.tail
    (Relation.ReflTransGen.tail Relation.ReflTransGen.refl step₁) step₂) step₃) step₄
  have hs := update_servers_self (((w₀.update 1 r₁.2 r₁.1).update 2 r₂.2 r₂.1).update 2 r₃.2 r₃.1) 1 r₄.2 r₄.1
  exact ⟨w₀, _, r₄.2, hinit, hr, hs, hl, election_safety (by decide) hinit hr hs hs hl hl rfl⟩

end Scylla.Raft
