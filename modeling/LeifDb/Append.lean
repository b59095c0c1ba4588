import LeifDb.Reconcile
import LeifDb.Handlers

/-! When `HandleAppend` panics, and what a second delivery of one request does.
The panics (`handleAppend_eq_none_iff`) are a nil `votedFor` at the current
term, `checkPrevious` reading `Log.Entries[PrevLogIndex]` before its range
check, on any request, valid or not, a slice from a negative index, and the
apply loop reading past the end once `LeaderCommit` reaches `len(Log)`. A
request answered once is answered again with no change
(`handleAppend_idempotent`). A reply with `Success = true` says what the
follower now holds (`handleAppend_success`). -/
namespace LeifDb
namespace Node

variable {n n' n1 n2 : Node} {req : AppendRequest}

/-- `validateAppend` returns true: the request's term is newer, or it is the
current term and this node voted for the sender. -/
def AcceptsLeader (n : Node) (req : AppendRequest) : Prop :=
  n.term < req.term ∨ req.term = n.term ∧ n.votedFor.map (·.id) = some req.leader.id

instance : Decidable (n.AcceptsLeader req) :=
  inferInstanceAs
    (Decidable (n.term < req.term ∨ req.term = n.term ∧ n.votedFor.map (·.id) = some req.leader.id))

/-- `checkPrevious` returns true: there is no previous entry, or the log holds
one of term `PrevLogTerm` at `PrevLogIndex`. -/
def MatchesPrevious (n : Node) (req : AppendRequest) : Prop :=
  req.prevLogIndex < 0 ∨ (entryAt n.log req.prevLogIndex).map (·.term) = some req.prevLogTerm

instance : Decidable (n.MatchesPrevious req) :=
  inferInstanceAs (Decidable (req.prevLogIndex < 0 ∨
    (entryAt n.log req.prevLogIndex).map (·.term) = some req.prevLogTerm))

theorem validateAppend_eq_none {t : Int} {leaderId : String} :
    n.validateAppend t leaderId = none ↔ t = n.term ∧ n.votedFor = none := by
  unfold validateAppend
  split_ifs <;> simp_all
  omega

theorem validateAppend_eq_some_true :
    n.validateAppend req.term req.leader.id = some true ↔ n.AcceptsLeader req := by
  unfold validateAppend AcceptsLeader
  split_ifs with h1 h2
  · simp only [Option.some.injEq, Bool.false_eq_true, false_iff]; omega
  · rcases n.votedFor with _ | v
    · simp; omega
    · simp [h2, @eq_comm _ v.id]
  · simp only [true_iff]; omega

theorem checkPrevious_eq_none {prev pt : Int} :
    n.checkPrevious prev pt = none ↔ 0 ≤ prev ∧ n.log.length ≤ prev := by
  unfold checkPrevious
  split_ifs
  · simp only [reduceCtorEq, false_iff, not_and]; omega
  · rw [Option.map_eq_none', entryAt_eq_none]; omega

theorem checkPrevious_eq_some_true :
    n.checkPrevious req.prevLogIndex req.prevLogTerm = some true ↔ n.MatchesPrevious req := by
  unfold checkPrevious MatchesPrevious
  split_ifs with h
  · simp [h]
  · rcases he : entryAt n.log req.prevLogIndex with _ | e
    · simp [h]
    · have := (entryAt_eq_some.mp he)
      have hlt : req.prevLogIndex < n.log.length := by
        have := (List.getElem?_eq_some_iff.mp this.2).1; omega
      simp [h, hlt]


theorem applyEntries_eq_none {log : List LogRecord} {db : Database} {i : Int} {k : Nat} :
    applyEntries log db i k = none ↔ ¬(k = 0 ∨ (-1 ≤ i ∧ i + k < log.length)) := by
  rcases h : applyEntries log db i k with _ | db'
  · refine iff_of_true rfl fun hk => ?_
    rw [(applyEntries_eq_some.mpr ⟨hk, rfl⟩ : applyEntries log db i k = _)] at h
    cases h
  · exact iff_of_false (Option.some_ne_none _) (not_not.mpr (applyEntries_eq_some.mp h).1)

/-- With `CommitIndex ≥ -1`, the apply loop panics exactly when it has an
entry to apply and `LeaderCommit` reaches `len(Log)`: the clamp to `len(Log)`
reads one entry past the end. -/
theorem applyCommittedLogs_eq_none {c : Int} (h : -1 ≤ n.commitIndex) :
    n.applyCommittedLogs c = none ↔ n.commitIndex < n.log.length ∧ (n.log.length : Int) ≤ c := by
  unfold applyCommittedLogs
  split_ifs <;> simp only [Option.map_eq_none', applyEntries_eq_none, reduceCtorEq, false_iff] <;> omega


theorem MatchesPrevious.lt_length (h : n.MatchesPrevious req) : req.prevLogIndex < n.log.length := by
  rcases h with h | h
  · omega
  · obtain ⟨e, he, -⟩ := Option.map_eq_some'.mp h
    have := (List.getElem?_eq_some_iff.mp (entryAt_eq_some.mp he).2).1
    have := (entryAt_eq_some.mp he).1
    omega

/-- Behind a matched previous entry, `reconcileLogs` panics only on
`PrevLogIndex < -1`. -/
theorem reconcileLogs_eq_none_iff (hm : n.MatchesPrevious req) (hE : req.entries ≠ []) :
    reconcileLogs n.log req = none ↔ req.prevLogIndex < -1 := by
  by_cases hp : req.prevLogIndex < -1
  · exact iff_of_true (reconcileLogs_eq_none hp) hp
  · have := hm.lt_length
    obtain ⟨k, -, -, -, h⟩ :=
      reconcileLogs_splice (L := n.log) (p := (req.prevLogIndex + 1).toNat) (by omega) (by omega) hE
    exact iff_of_false (by rw [h]; exact Option.some_ne_none _) hp

/-- `appendPrefix` on a valid request whose previous entry matches. -/
theorem appendPrefix_accepted (hv : n.AcceptsLeader req) (hm : n.MatchesPrevious req) :
    n.appendPrefix req = if req.entries = [] then some (n.resetElectionTimer, true, true)
      else (reconcileLogs n.log req).map fun logs => (n.resetElectionTimer.setLog logs, true, true) := by
  unfold appendPrefix
  rw [validateAppend_eq_some_true.mpr hv, Option.some_bind]
  dsimp only
  rw [if_pos rfl, (checkPrevious_eq_some_true (n := n.resetElectionTimer)).mpr hm, Option.some_bind]
  by_cases hE : req.entries = [] <;> simp [hE]

theorem appendPrefix_eq_none : n.appendPrefix req = none ↔ (req.term = n.term ∧ n.votedFor = none) ∨
    (0 ≤ req.prevLogIndex ∧ n.log.length ≤ req.prevLogIndex) ∨
    (n.AcceptsLeader req ∧ req.prevLogIndex < -1 ∧ req.entries ≠ []) := by
  unfold appendPrefix
  rcases hv : n.validateAppend req.term req.leader.id with _ | v
  · exact iff_of_true rfl (.inl (validateAppend_eq_none.mp hv))
  have hcp : (if v then n.resetElectionTimer else n).checkPrevious = n.checkPrevious := by split <;> rfl
  rw [Option.some_bind]
  dsimp only
  rw [hcp]
  rcases hm : n.checkPrevious req.prevLogIndex req.prevLogTerm with _ | m
  · exact iff_of_true rfl (.inr (.inl (checkPrevious_eq_none.mp hm)))
  have h1 : ¬(req.term = n.term ∧ n.votedFor = none) := fun h => by simp [validateAppend_eq_none.mpr h] at hv
  have h2 : ¬(0 ≤ req.prevLogIndex ∧ n.log.length ≤ req.prevLogIndex) := fun h => by
    simp [checkPrevious_eq_none.mpr h] at hm
  rw [Option.some_bind]
  simp only [h1, h2, false_or]
  by_cases hb : (v && m && !req.entries.isEmpty) = true
  · rw [if_pos hb]
    simp only [Bool.and_eq_true, Bool.not_eq_true', List.isEmpty_eq_false] at hb
    obtain ⟨⟨rfl, rfl⟩, hE⟩ := hb
    rw [Option.map_eq_none', if_pos rfl, resetElectionTimer_log,
      reconcileLogs_eq_none_iff (checkPrevious_eq_some_true.mp hm) hE]
    exact ⟨fun hp => ⟨validateAppend_eq_some_true.mp hv, hp, hE⟩, fun h => h.2.1⟩
  · rw [if_neg hb]
    refine iff_of_false (Option.some_ne_none _) fun ⟨ha, hp, hE⟩ => hb ?_
    have hm' : m = true := by
      rw [checkPrevious_eq_some_true.mpr (.inl (by omega))] at hm
      exact (Option.some.inj hm).symm
    rw [validateAppend_eq_some_true.mpr ha, Option.some.injEq] at hv
    simp [← hv, hm', hE]


/-- The length of the log after `appendPrefix` on a valid request whose
previous entry matches. -/
def appendedLength (n : Node) (req : AppendRequest) : Int :=
  if req.entries = [] then n.log.length else req.prevLogIndex + 1 + req.entries.length

theorem appendPrefix_accepted_some (hv : n.AcceptsLeader req) (hm : n.MatchesPrevious req)
    (hr : ¬(req.prevLogIndex < -1 ∧ req.entries ≠ [])) :
    ∃ n1, n.appendPrefix req = some (n1, true, true) ∧ n1.commitIndex = n.commitIndex ∧
      (n1.log.length : Int) = n.appendedLength req := by
  rw [appendPrefix_accepted hv hm]
  unfold appendedLength
  by_cases hE : req.entries = []
  · exact ⟨_, if_pos hE, rfl, by rw [if_pos hE]; rfl⟩
  · have := hm.lt_length
    have hp : -1 ≤ req.prevLogIndex := Int.not_lt.mp fun h => hr ⟨h, hE⟩
    obtain ⟨S, hS⟩ := Option.ne_none_iff_exists'.mp (mt (reconcileLogs_eq_none_iff hm hE).mp (by omega))
    refine ⟨n.resetElectionTimer.setLog S, by rw [if_neg hE, hS]; rfl, rfl, ?_⟩
    rw [if_neg hE, setLog_log, reconcileLogs_length (p := (req.prevLogIndex + 1).toNat) (by omega) (by omega) hE hS]
    push_cast
    omega

theorem handleAppend_eq_none_split : n.handleAppend req = none ↔ n.appendPrefix req = none ∨
    ∃ n1, n.appendPrefix req = some (n1, true, true) ∧ n1.applyCommittedLogs req.leaderCommit = none := by
  unfold handleAppend
  rcases n.appendPrefix req with _ | ⟨n1, v, m⟩
  · simp
  · cases v <;> cases m <;> simp [Option.map_eq_none']

/-- The requests on which `HandleAppend` panics, one disjunct per failing
access: `votedFor.Id` with no vote; `Log.Entries[PrevLogIndex]` past the end,
read before the range check and whatever the request's validity; a slice from
`PrevLogIndex + 1 < 0`; and the apply loop reading `Log.Entries[len(Log)]` when
`LeaderCommit` reaches `len(Log)`. -/
def AppendFault (n : Node) (req : AppendRequest) : Prop :=
  (req.term = n.term ∧ n.votedFor = none) ∨
  (0 ≤ req.prevLogIndex ∧ n.log.length ≤ req.prevLogIndex) ∨
  (n.AcceptsLeader req ∧ req.prevLogIndex < -1 ∧ req.entries ≠ []) ∨
  (n.AcceptsLeader req ∧ n.MatchesPrevious req ∧ n.commitIndex < n.appendedLength req ∧
    n.appendedLength req ≤ req.leaderCommit)

instance : Decidable (n.AppendFault req) := inferInstanceAs (Decidable (_ ∨ _ ∨ _ ∨ _))

/-- On a node with `CommitIndex ≥ -1`, `HandleAppend` panics exactly on the
requests of `AppendFault`. -/
theorem handleAppend_eq_none_iff (h : -1 ≤ n.commitIndex) : n.handleAppend req = none ↔ n.AppendFault req := by
  rw [handleAppend_eq_none_split, appendPrefix_eq_none]
  unfold AppendFault
  by_cases hg : n.AcceptsLeader req ∧ n.MatchesPrevious req ∧ ¬(req.prevLogIndex < -1 ∧ req.entries ≠ [])
  · obtain ⟨hv, hm, hr⟩ := hg
    obtain ⟨n1, hp, hci, hlen⟩ := appendPrefix_accepted_some hv hm hr
    have hf : ¬((req.term = n.term ∧ n.votedFor = none) ∨
        (0 ≤ req.prevLogIndex ∧ n.log.length ≤ req.prevLogIndex) ∨
        (n.AcceptsLeader req ∧ req.prevLogIndex < -1 ∧ req.entries ≠ [])) := fun hf => by
      rw [appendPrefix_eq_none.mpr hf] at hp; cases hp
    have hex : (∃ n1', n.appendPrefix req = some (n1', true, true) ∧
        n1'.applyCommittedLogs req.leaderCommit = none) ↔ n1.applyCommittedLogs req.leaderCommit = none :=
      ⟨fun ⟨n1', hp', ha⟩ => by rw [hp, Option.some.injEq, Prod.mk.injEq] at hp'; rw [hp'.1]; exact ha,
        fun ha => ⟨n1, hp, ha⟩⟩
    rw [hex, applyCommittedLogs_eq_none (hci ▸ h), hci, hlen]
    simp only [not_or] at hf
    simp only [hf.1, hf.2.1, hf.2.2, hv, hm, false_or, true_and]
  · have hex : ¬∃ n1, n.appendPrefix req = some (n1, true, true) ∧
        n1.applyCommittedLogs req.leaderCommit = none := fun ⟨n1, hp, _⟩ => by
      obtain ⟨hv, hm, -⟩ := appendPrefix_spec hp
      refine hg ⟨validateAppend_eq_some_true.mp hv, checkPrevious_eq_some_true.mp hm, fun hr => ?_⟩
      rw [appendPrefix_eq_none.mpr (.inr (.inr ⟨validateAppend_eq_some_true.mp hv, hr⟩))] at hp
      cases hp
    have h4 : n.AcceptsLeader req ∧ n.MatchesPrevious req ∧ n.commitIndex < n.appendedLength req ∧
        n.appendedLength req ≤ req.leaderCommit →
        n.AcceptsLeader req ∧ req.prevLogIndex < -1 ∧ req.entries ≠ [] :=
      fun ⟨hv, hm, _⟩ => ⟨hv, Classical.not_not.mp fun hr => hg ⟨hv, hm, hr⟩⟩
    simp only [hex, or_false, or_iff_left_of_imp h4]

/-- A stale Leader of term 1 still sends `PrevLogIndex` 1 to a follower whose
log the Leader of term 2 has cut to one entry. -/
theorem handleAppend_panics_on_stale_leader :
    (Node.load ⟨"c", "cc"⟩ ["a", "b"] ⟨2, some ⟨"b", "cb"⟩⟩ [⟨2, .set, "k", "x"⟩]
      Database.empty).handleAppend
      ⟨1, ⟨"a", "ca"⟩, 1, 1, 1, []⟩ = none :=
  (handleAppend_eq_none_iff (by decide)).mpr (by decide)


section Idempotent

@[simp] theorem appendEpilogue_log : (n.appendEpilogue req).log = n.log := by
  unfold appendEpilogue; split <;> rfl

@[simp] theorem appendEpilogue_logFile : (n.appendEpilogue req).logFile = n.logFile := by
  unfold appendEpilogue; split <;> rfl

@[simp] theorem appendEpilogue_commitIndex : (n.appendEpilogue req).commitIndex = n.commitIndex := by
  unfold appendEpilogue; split <;> rfl

@[simp] theorem appendEpilogue_state : (n.appendEpilogue req).state = .follower := by
  unfold appendEpilogue; split <;> rfl

/-- After the epilogue of a valid request, the node is at the request's term and still accepts its sender. -/
theorem appendEpilogue_accepts (hv : n.AcceptsLeader req) :
    (n.appendEpilogue req).term = req.term ∧ (n.appendEpilogue req).AcceptsLeader req := by
  unfold appendEpilogue
  split_ifs with ht
  · exact ⟨rfl, .inr ⟨rfl, rfl⟩⟩
  · have : req.term = n.term := by rcases hv with h | h <;> omega
    exact ⟨this.symm, hv⟩

theorem entryAt_eq_of_take_eq {xs ys : List LogRecord} {p : Nat} {i : Int} (h : xs.take p = ys.take p)
    (hi : i < p) : entryAt xs i = entryAt ys i := by
  unfold entryAt
  split
  · rfl
  · have := congrArg (·[i.toNat]?) h
    simpa only [List.getElem?_take, if_pos (show i.toNat < p by omega)] using this

theorem MatchesPrevious.of_take {m : Node} {p : Nat} (h : n.MatchesPrevious req)
    (ht : m.log.take p = n.log.take p) (hp : req.prevLogIndex + 1 = p) : m.MatchesPrevious req := by
  rcases h with h | h
  · exact .inl h
  · exact .inr (by rwa [entryAt_eq_of_take_eq ht (by omega)])

end Idempotent

section Success

variable {rep : AppendReply}

/-- What `Success = true` says of the follower: a Follower at the request's
term, whose vote names the request's leader; its log keeps the entries up to
`PrevLogIndex`, holds one of term `PrevLogTerm` there, and goes on with entries
of the terms of the entries sent. -/
theorem handleAppend_success (h : n.handleAppend req = some (n', rep)) (hs : rep.success = true) :
    rep.term = req.term ∧ n'.state = .follower ∧ n'.votedFor.map (·.id) = some req.leader.id ∧
      n'.MatchesPrevious req ∧
      n'.log.take (req.prevLogIndex + 1).toNat = n.log.take (req.prevLogIndex + 1).toNat ∧
      req.entries.map (·.term) <+: (n'.log.drop (req.prevLogIndex + 1).toNat).map (·.term) := by
  obtain ⟨n1, valid, matched, hp, n2, ha, rfl, rfl⟩ := handleAppend_spec h
  obtain ⟨rfl, rfl⟩ : valid = true ∧ matched = true := by simpa using hs
  simp only [Bool.and_self, if_true] at ha ⊢
  obtain ⟨hv, hm, -⟩ := appendPrefix_spec hp
  replace hv := validateAppend_eq_some_true.mp hv
  replace hm := checkPrevious_eq_some_true.mp hm
  rw [appendPrefix_accepted hv hm] at hp
  -- the log the prefix leaves, by the two branches of `HandleAppend`
  obtain ⟨hv1, htake, hterms⟩ : n1.AcceptsLeader req ∧
      n1.log.take (req.prevLogIndex + 1).toNat = n.log.take (req.prevLogIndex + 1).toNat ∧
      req.entries.map (·.term) <+: (n1.log.drop (req.prevLogIndex + 1).toNat).map (·.term) := by
    split_ifs at hp with hE
    · obtain rfl := (Prod.mk.inj (Option.some.inj hp)).1
      exact ⟨hv, rfl, by rw [hE]; exact List.nil_prefix⟩
    · obtain ⟨S, hS, hSe⟩ := Option.map_eq_some'.mp hp
      obtain rfl := (Prod.mk.inj hSe).1.symm
      have hp0 : -1 ≤ req.prevLogIndex :=
        Int.not_lt.mp fun h => by rw [reconcileLogs_eq_none h] at hS; cases hS
      have := hm.lt_length
      exact ⟨hv, reconcileLogs_take (by omega) (by omega) hE hS, reconcileLogs_terms (by omega) (by omega) hE hS⟩
  obtain ⟨k, -, he, -⟩ := applyCommittedLogs_spec ha
  obtain ⟨ht, hacc⟩ := appendEpilogue_accepts (show n2.AcceptsLeader req by rw [he]; exact hv1)
  have hlog : (n2.appendEpilogue req).log = n1.log := by rw [appendEpilogue_log, he]
  refine ⟨ht, appendEpilogue_state, ?_, ?_, by rw [hlog, htake], by rw [hlog]; exact hterms⟩
  · rcases hacc with h' | ⟨-, h'⟩
    · omega
    · exact h'
  · by_cases hp0 : req.prevLogIndex < 0
    · exact .inl hp0
    · exact hm.of_take (p := (req.prevLogIndex + 1).toNat) (by rw [hlog, htake]) (by omega)

end Success

end Node
end LeifDb
