import Scylla.Raft.Fsm.Step
import Scylla.Lib.Rank

/-!
# A group of Raft servers

The system the fsm is part of: servers that each run a `raft::fsm`, a network, and stable storage.  A message
handed out by `get_output()` goes into the network and stays there, so delivery may lose it (never deliver it),
duplicate it (deliver it twice) or reorder it.  What `server_impl::process_fsm_output` persists (`raft/server.cc`)
is kept per server: the term and vote, the snapshot descriptor, the log entries (truncated where a new batch
overwrites them) and the commit index of the last committed batch.  A restarted server is rebuilt from them.

The actions are the fsm's entry points, a local snapshot taken by the server at an applied index (with the term
and configuration of the log at that index), and a restart.  An action whose operation fails (an exception or a
failed assertion) is not taken.
-/

namespace Scylla.Raft

/-- The stable storage of one server. -/
structure Persisted where
  term : Nat
  votedFor : Nat
  snapshot : SnapshotDescriptor
  entries : List LogEntry
  commitIdx : Nat
  deriving DecidableEq, Repr

/-- `persistence::store_log_entries` after `truncate_log`: a batch starting at or below the persisted end replaces
the entries from its first index on. -/
def Persisted.storeEntries (p : Persisted) (es : List LogEntry) : Persisted :=
  match es.head? with
  | none => p
  | some e => { p with entries := p.entries.filter (·.idx < e.idx) ++ es }

/-- `process_fsm_output`: persist the term and vote, the snapshot (dropping the log prefix it replaces, less the
preserved trailing entries), the new entries and the commit index of the last committed entry. -/
def Persisted.store (p : Persisted) (o : FsmOutput) : Persisted :=
  let p := match o.termAndVote with
    | some (t, v) => { p with term := t, votedFor := v }
    | none => p
  let p := match o.snp with
    | some a => { p with snapshot := a.snp,
                         entries := p.entries.filter (·.idx + a.preservedLogEntries > a.snp.idx) }
    | none => p
  let p := p.storeEntries o.logEntries
  match o.committed.getLast? with
  | some e => { p with commitIdx := e.idx }
  | none => p

/-- One server of the group. -/
structure Server where
  id : Nat
  fsm : Fsm
  stored : Persisted
  deriving DecidableEq, Repr

/-- A group: its servers, the configuration of each fsm, and every message ever handed out, as
`(from, to, message)`. -/
structure Group where
  servers : List Server
  config : FsmConfig
  maxCommandSize : Nat
  network : List (Nat × Nat × RpcMessage)
  deriving DecidableEq, Repr

/-- The environment's inputs and the operations a group can take. -/
inductive Action where
  /-- `fsm::tick` on server `id`; `alive` is the failure detector's answer and `rnd` the random engine's draw. -/
  | tick (id : Nat) (alive : Nat → Bool) (rnd : Nat)
  /-- Deliver the `k`-th message of the network to its destination with `fsm::step`. -/
  | deliver (k : Nat) (rnd : Nat)
  | addEntry (id : Nat) (data : EntryData)
  | getOutput (id : Nat)
  /-- The server takes a snapshot of its state machine at the applied index `idx` (`fsm::apply_snapshot` with
  `local = true`). -/
  | takeSnapshot (id : Nat) (idx snpId maxTrailingEntries maxTrailingBytes : Nat)
  | transferLeadership (id : Nat) (timeout : Nat)
  | startReadBarrier (id requester : Nat)
  | pingLeader (id : Nat) (alive : Nat → Bool)
  /-- The server restarts from its stable storage. -/
  | restart (id : Nat) (rnd : Nat)

namespace Group

/-- The server with the given id. -/
def server? (g : Group) (id : Nat) : Option Server := g.servers.find? (·.id == id)

/-- The fsm of the server with the given id. -/
def fsm? (g : Group) (id : Nat) : Option Fsm := (g.server? id).map (·.fsm)

/-- Replace the server with the same id. -/
def setServer (g : Group) (srv : Server) : Group :=
  { g with servers := g.servers.map fun t => if t.id == srv.id then srv else t }

/-- Run one fsm operation on a server; `none` if the operation fails or there is no such server. -/
def runOn {α : Type} (g : Group) (id : Nat) (op : FsmM α) : Option (α × Group) :=
  match g.server? id with
  | none => none
  | some srv =>
    match op.run srv.fsm with
    | .ok (a, f) => some (a, g.setServer { srv with fsm := f })
    | .error _ => none

/-- The log a restarted server rebuilds from its stable storage. -/
def restoredLog (g : Group) (p : Persisted) : Except RaftError Log :=
  Log.mk' p.snapshot p.entries g.maxCommandSize

/-- One action of the group. -/
def exec (g : Group) : Action → Option Group
  | .tick id alive rnd => (g.runOn id (Fsm.tick alive rnd)).map (·.2)
  | .deliver k rnd => do
    let (src, dst, msg) ← g.network[k]?
    (g.runOn dst (Fsm.step src msg rnd)).map (·.2)
  | .addEntry id data => (g.runOn id (Fsm.addEntry data)).map (·.2)
  | .getOutput id => do
    let (o, g) ← g.runOn id Fsm.getOutput
    let srv ← g.server? id
    let g := g.setServer { srv with stored := srv.stored.store o }
    return { g with network := g.network ++ o.messages.map fun (dst, m) => (id, dst, m) }
  | .takeSnapshot id idx snpId maxTrailingEntries maxTrailingBytes => do
    let f ← g.fsm? id
    let term ← f.log.termFor idx
    let config ← (f.log.lastConfFor idx).toOption
    let snp : SnapshotDescriptor := { idx, term, config, id := snpId }
    (g.runOn id (Fsm.applySnapshot snp maxTrailingEntries maxTrailingBytes true)).map (·.2)
  | .transferLeadership id timeout => (g.runOn id (Fsm.transferLeadership timeout)).map (·.2)
  | .startReadBarrier id requester => (g.runOn id (Fsm.startReadBarrier requester)).map (·.2)
  | .pingLeader id alive => (g.runOn id (Fsm.pingLeaderOp alive)).map (·.2)
  | .restart id rnd => do
    let srv ← g.server? id
    let log ← (g.restoredLog srv.stored).toOption
    let f ← (Fsm.create id srv.stored.term srv.stored.votedFor log srv.stored.commitIdx g.config rnd).toOption
    return g.setServer { srv with fsm := f }

/-- Run a sequence of actions; `none` if one of them cannot be taken. -/
def run (g : Group) : List Action → Option Group
  | [] => some g
  | a :: as => (g.exec a).bind fun g => run g as

/-- The group of servers `ids`, all started with the same configuration in an empty log at term 0 (the
constructor of each fsm draws `rnd` for its election timeout). -/
def init (ids : List Nat) (cfg : Configuration) (config : FsmConfig) (maxCommandSize rnd : Nat) :
    Option Group := do
  let snp : SnapshotDescriptor := { config := cfg }
  let servers ← ids.mapM fun id => do
    let log ← (Log.mk' snp [] maxCommandSize).toOption
    let f ← (Fsm.create id 0 0 log 0 config rnd).toOption
    return { id, fsm := f, stored := { term := 0, votedFor := 0, snapshot := snp, entries := [], commitIdx := 0 } }
  return { servers, config, maxCommandSize, network := [] }

end Group

/-- The states a group reaches from a common initial configuration by any sequence of actions. -/
inductive Reachable (ids : List Nat) (cfg : Configuration) (config : FsmConfig) (maxCommandSize : Nat) :
    Group → Prop where
  | init {g : Group} (rnd : Nat) : Group.init ids cfg config maxCommandSize rnd = some g →
      Reachable ids cfg config maxCommandSize g
  | exec {g g' : Group} (a : Action) : Reachable ids cfg config maxCommandSize g → g.exec a = some g' →
      Reachable ids cfg config maxCommandSize g'

namespace Reachable

variable {ids : List Nat} {cfg : Configuration} {config : FsmConfig} {maxCommandSize : Nat}

/-- A sequence of actions taken from a reachable state ends in a reachable state. -/
theorem run {g g' : Group} (h : Reachable ids cfg config maxCommandSize g) :
    ∀ {as : List Action}, g.run as = some g' → Reachable ids cfg config maxCommandSize g'
  | [], hr => by
    simp only [Group.run, Option.some.injEq] at hr
    exact hr ▸ h
  | a :: as, hr => by
    simp only [Group.run] at hr
    cases he : g.exec a with
    | none => simp [he] at hr
    | some g₁ =>
      rw [he, Option.bind_some] at hr
      exact (Reachable.exec a h he).run hr

end Reachable

/-! ### Fast bootstrap

Every server of a fresh group constructs its fsm from the same configuration, an empty log and the same
`fast_bootstrap_seed`.  Each decides alone whether to start as a candidate, and exactly one does: the voter of
rank `seed % voters` by id (`startAsCandidate_unique`), since ranks of distinct ids take every value below the
number of voters once (`Rank.existsUnique_countP_lt`).
-/

/-- The log of a fresh server holds the snapshot and nothing else. -/
theorem Log.mk'_nil {snp : SnapshotDescriptor} {mcs : Nat} {l : Log} (h : Log.mk' snp [] mcs = .ok l) :
    l.getConfiguration = snp.config ∧ l.lastIdx = snp.idx := by
  simp only [Log.mk', List.head?_nil, List.isEmpty_nil, Bool.true_eq_false, false_and, ↓reduceIte,
    Nat.add_one_ne_zero, List.reverse_nil, initLastConfIdxLoop, Except.ok.injEq] at h
  subst h
  exact ⟨rfl, by simp [Log.lastIdx]⟩

/-- With one member per id, `find` returns the member of an id. -/
theorem ConfigMember.find?_of_mem {s : List ConfigMember} (hnd : (s.map (·.id)).Nodup) {m : ConfigMember}
    (hm : m ∈ s) : ConfigMember.find? s m.id = some m := by
  induction s with
  | nil => cases hm
  | cons a s ih =>
    rw [List.map_cons, List.nodup_cons] at hnd
    unfold ConfigMember.find? at ih ⊢
    rcases List.mem_cons.1 hm with rfl | hm'
    · simp
    · have hne : a.id ≠ m.id := fun h => hnd.1 (h ▸ List.mem_map_of_mem hm')
      simp [hne, ih hnd.2 hm']

/-- With one member per id, a member's voting right is its own flag. -/
theorem Configuration.canVote_of_mem {cfg : Configuration} (hj : cfg.isJoint = false)
    (hnd : (cfg.current.map (·.id)).Nodup) {m : ConfigMember} (hm : m ∈ cfg.current) : cfg.canVote m.id = m.canVote := by
  have hprev : cfg.previous = [] := by simpa [Configuration.isJoint] using hj
  rw [Configuration.canVote, ConfigMember.find?_of_mem hnd hm, hprev]
  simp [ConfigMember.find?]

/-- The rank of a voter is the number of voters with a smaller id. -/
theorem length_filter_id_lt (vs : List ConfigMember) (id : Nat) :
    (vs.filter (·.id < id)).length = (vs.map (·.id)).countP (· < id) := by
  rw [List.countP_map, List.countP_eq_length_filter]
  rfl

/-- A server of a fresh group on a non-joint configuration starts as a candidate exactly if it is a voter of rank
`seed % voters`. -/
theorem startAsCandidate_iff {cfg : Configuration} (hj : cfg.isJoint = false) (hnd : (cfg.current.map (·.id)).Nodup)
    {snp : SnapshotDescriptor} (hidx : snp.idx = 0) (hcfg : snp.config = cfg)
    {mcs : Nat} {log : Log} (hlog : Log.mk' snp [] mcs = .ok log) {config : FsmConfig} {seed : Nat}
    (hseed : config.fastBootstrapSeed = some seed) {m : ConfigMember} (hm : m ∈ cfg.current) :
    Fsm.startAsCandidate m.id log config = true ↔
      m.canVote = true ∧ ((cfg.current.filter (·.canVote)).filter (·.id < m.id)).length =
        seed % (cfg.current.filter (·.canVote)).length := by
  obtain ⟨hconf, hlast⟩ := Log.mk'_nil hlog
  have hcan := Configuration.canVote_of_mem hj hnd hm
  unfold Fsm.startAsCandidate
  dsimp only
  rw [hconf, hcfg, hcan]
  cases hmv : m.canVote
  · simp
  · by_cases h1 : cfg.current.length = 1
    · -- The sole member is the voter, of rank 0 among one voter.
      obtain ⟨a, ha⟩ := List.length_eq_one_iff.1 h1
      rw [ha, List.mem_singleton] at hm
      subst hm
      simp [ha, hmv, Nat.mod_one]
    · simp only [Bool.not_true, Bool.false_eq_true, ↓reduceIte, h1, hseed, hlast, hidx, ne_eq,
        not_true_eq_false, beq_iff_eq, true_and]

/-- Fast bootstrap elects one candidate: of all members of a fresh group on a non-joint configuration with a voter,
exactly one starts as a candidate, the voter whose rank among the voters by id is `seed % voters`. -/
theorem startAsCandidate_unique {cfg : Configuration} (hj : cfg.isJoint = false)
    (hnd : (cfg.current.map (·.id)).Nodup) (hv : ∃ m ∈ cfg.current, m.canVote) {snp : SnapshotDescriptor}
    (hidx : snp.idx = 0) (hcfg : snp.config = cfg) {mcs : Nat} {log : Log} (hlog : Log.mk' snp [] mcs = .ok log)
    {config : FsmConfig} {seed : Nat} (hseed : config.fastBootstrapSeed = some seed) :
    ∃ v ∈ cfg.current, v.canVote = true ∧
      ((cfg.current.filter (·.canVote)).filter (·.id < v.id)).length = seed % (cfg.current.filter (·.canVote)).length ∧
      ∀ m ∈ cfg.current, Fsm.startAsCandidate m.id log config = true ↔ m = v := by
  set voters := cfg.current.filter (·.canVote)
  have hpos : 0 < voters.length := by
    obtain ⟨m, hm, hmv⟩ := hv
    exact List.length_pos_of_mem (List.mem_filter.2 ⟨hm, hmv⟩)
  have hvnd : (voters.map (·.id)).Nodup := hnd.sublist (List.filter_sublist.map _)
  -- The id of rank `seed % voters`, and its voter.
  obtain ⟨x, ⟨hx, hxk⟩, hxu⟩ := Rank.existsUnique_countP_lt hvnd
    (k := seed % voters.length) (by rw [List.length_map]; exact Nat.mod_lt _ hpos)
  obtain ⟨v, hvv, rfl⟩ := List.mem_map.1 hx
  obtain ⟨hvm, hvc⟩ := List.mem_filter.1 hvv
  have hrank : ∀ m : ConfigMember, (voters.filter (·.id < m.id)).length = (voters.map (·.id)).countP (· < m.id) :=
    fun m => length_filter_id_lt voters m.id
  refine ⟨v, hvm, by simpa using hvc, by rw [hrank]; exact hxk, fun m hm => ?_⟩
  rw [startAsCandidate_iff hj hnd hidx hcfg hlog hseed hm, hrank]
  constructor
  · rintro ⟨hmc, hmk⟩
    -- Two voters of the same rank have the same id, hence are the same member.
    have hid : m.id = v.id := hxu m.id ⟨List.mem_map_of_mem (List.mem_filter.2 ⟨hm, by simpa using hmc⟩), hmk⟩
    exact List.inj_on_of_nodup_map hnd hm hvm hid
  · rintro rfl
    exact ⟨by simpa using hvc, hxk⟩

/-- The group of the source's test: a non-voter with the smallest id and two voters; with seed 0 the voter with the
smaller id is the one candidate. -/
theorem startAsCandidate_unique_fresh_three :
    let cfg : Configuration := { current := [⟨1, false⟩, ⟨2, true⟩, ⟨3, true⟩] }
    let config : FsmConfig := { appendRequestThreshold := 1, maxLogSize := 64, enablePrevoting := true,
                                fastBootstrapSeed := some 0 }
    cfg.isJoint = false ∧ (cfg.current.map (·.id)).Nodup ∧ (∃ m ∈ cfg.current, m.canVote) ∧
      ∃ log, Log.mk' { config := cfg } [] 64 = .ok log ∧
        ∃ v ∈ cfg.current, v.canVote = true ∧
          ((cfg.current.filter (·.canVote)).filter (·.id < v.id)).length =
            0 % (cfg.current.filter (·.canVote)).length ∧
          ∀ m ∈ cfg.current, Fsm.startAsCandidate m.id log config = true ↔ m = v := by
  intro cfg config
  have hv : ∃ m ∈ cfg.current, m.canVote := ⟨⟨2, true⟩, by simp [cfg], rfl⟩
  exact ⟨rfl, by decide, hv, _, rfl,
    @startAsCandidate_unique cfg rfl (by decide) hv { config := cfg } rfl rfl 64 _ rfl config 0 rfl⟩

end Scylla.Raft
