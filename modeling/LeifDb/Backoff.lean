import LeifDb.Append
import LeifDb.Leader
import Mathlib.Tactic.Set

/-! The back-off of `requestAppend`, run against one follower's `HandleAppend`.
The request is cut from the log before the escape hatch, so a `MatchIndex`
outside the log panics (`appendRequest_eq_none_iff`). From a `MatchIndex`
inside both logs the recursion walks down to the last index where the logs
agree in term and succeeds there, or stops at index 0 with
`ErrAppendRangeMet` (`requestAppendTo_backOff`). -/
namespace LeifDb
namespace Node

variable {n fl : Node} {host : String} {term : Int} {f : ForeignNode}

theorem find?_updatePeer {g : ForeignNode → ForeignNode} :
    (n.updatePeer host g).otherNodes.find? (·.1 = host) =
      (n.otherNodes.find? (·.1 = host)).map fun p => (p.1, g p.2) := by
  simp only [updatePeer_otherNodes]
  induction n.otherNodes with
  | nil => rfl
  | cons p ps ih =>
    by_cases hp : p.1 = host
    · simp [hp]
    · simp [hp, ih]

section Peer

variable {idx : Int} (hf : n.otherNodes.find? (·.1 = host) = some (host, f))
include hf

theorem find?_appendSucceeded : (n.appendSucceeded host idx).otherNodes.find? (·.1 = host) =
    some (host, { f with matchIndex := idx - 1, nextIndex := idx, available := true }) := by
  rw [appendSucceeded, find?_updatePeer, hf]; rfl

theorem find?_backOff :
    (n.backOff host).otherNodes.find? (·.1 = host) = some (host, { f with matchIndex := f.matchIndex - 1 }) := by
  rw [backOff, find?_updatePeer, hf]; rfl

theorem find?_setAvailable {b : Bool} :
    (n.setAvailable host b).otherNodes.find? (·.1 = host) = some (host, { f with available := b }) := by
  rw [setAvailable, find?_updatePeer, hf]; rfl

end Peer

/-- `requestAppend` panics exactly when the peer's `MatchIndex` lies outside
`-1 ≤ MatchIndex < len(Log)`: the slice `Log.Entries[MatchIndex+1:]` and the
read of `Log.Entries[MatchIndex]` both come before the escape hatch. -/
theorem appendRequest_eq_none_iff :
    n.appendRequest term f = none ↔ f.matchIndex < -1 ∨ (n.log.length : Int) ≤ f.matchIndex := by
  unfold appendRequest
  simp only [Option.bind_eq_bind, Option.pure_def]
  by_cases h : f.matchIndex < -1 ∨ (n.log.length : Int) ≤ f.matchIndex
  · have hs : slice n.log (f.matchIndex + 1) n.log.length = none := by unfold slice; rw [if_neg (by omega)]
    simp [hs, h]
  · rw [slice_eq_drop (k := (f.matchIndex + 1).toNat) (by omega) (by omega), Option.some_bind]
    split_ifs with h0
    · obtain ⟨e, he⟩ : ∃ e, entryAt n.log f.matchIndex = some e :=
        Option.ne_none_iff_exists'.mp (by rw [Ne, entryAt_eq_none]; omega)
      simp [he, h]
    · simp [h]

/-- In range, `requestAppend` sends the log past `MatchIndex`, with the term
of the entry at `MatchIndex`. -/
theorem appendRequest_eq_some (term : Int) (h0 : -1 ≤ f.matchIndex) (h1 : f.matchIndex < n.log.length) :
    ∃ pt, n.appendRequest term f =
      some ((⟨term, n.raftNode, f.matchIndex, pt, n.commitIndex, n.log.drop (f.matchIndex + 1).toNat⟩ :
        AppendRequest), (n.log.length : Int)) ∧
      (0 ≤ f.matchIndex → (entryAt n.log f.matchIndex).map (·.term) = some pt) := by
  unfold appendRequest
  simp only [Option.bind_eq_bind, Option.pure_def]
  rw [slice_eq_drop (k := (f.matchIndex + 1).toNat) (by omega) (by omega), Option.some_bind]
  split_ifs with hm
  · obtain ⟨e, he⟩ : ∃ e, entryAt n.log f.matchIndex = some e :=
      Option.ne_none_iff_exists'.mp (by rw [Ne, entryAt_eq_none]; omega)
    exact ⟨e.term, by simp [he], fun _ => by simp [he]⟩
  · exact ⟨0, rfl, fun h => absurd h hm⟩


/-- What `requestAppend` may take from `Success = true` when it sets the peer's
`MatchIndex` to `idx - 1`: from the old `MatchIndex` up to the new one, the
follower's log now holds entries of the terms the Leader's log holds there. -/
theorem appendRequest_success_agrees {idx : Int} {req : AppendRequest} {fl' : Node} {rep : AppendReply}
    (hr : n.appendRequest term f = some (req, idx)) (h : fl.handleAppend req = some (fl', rep))
    (hs : rep.success = true) {j : Int} (hj : f.matchIndex ≤ j) (hji : j < idx) :
    (entryAt fl'.log j).map (·.term) = (entryAt n.log j).map (·.term) := by
  have hb : ¬(f.matchIndex < -1 ∨ (n.log.length : Int) ≤ f.matchIndex) := fun h' => by
    rw [appendRequest_eq_none_iff.mpr h'] at hr; cases hr
  obtain ⟨pt, hr', hpt⟩ := appendRequest_eq_some (n := n) (f := f) term (by omega) (by omega)
  rw [hr', Option.some.injEq, Prod.mk.injEq] at hr
  obtain ⟨rfl, rfl⟩ := hr
  obtain ⟨-, -, -, hm, -, hterms⟩ := handleAppend_success h hs
  dsimp only at hterms
  rcases (show j = f.matchIndex ∨ f.matchIndex < j by omega) with rfl | hlt
  · -- at `MatchIndex`: the entry `checkPrevious` matched, or none on either side
    by_cases h0 : 0 ≤ f.matchIndex
    · rcases hm with hm | hm
      · exact absurd hm (Int.not_lt.mpr h0)
      · exact hm.trans (hpt h0).symm
    · unfold entryAt
      rw [if_pos (by omega), if_pos (by omega)]
  · -- past it: the entries sent
    have hi : j.toNat - (f.matchIndex + 1).toNat <
        ((n.log.drop (f.matchIndex + 1).toNat).map (·.term)).length := by
      simp only [List.length_map, List.length_drop]; omega
    obtain ⟨t, ht⟩ := hterms
    have := congrArg (·[j.toNat - (f.matchIndex + 1).toNat]?) ht
    simp only [List.getElem?_append_left hi, List.getElem?_map, List.getElem?_drop,
      Nat.add_sub_cancel' (show (f.matchIndex + 1).toNat ≤ j.toNat by omega)] at this
    unfold entryAt
    rw [if_neg (by omega), if_neg (by omega)]
    exact this.symm

theorem appendRequest_success_agrees_at_new_entry :
    ∃ req idx fl' rep,
      (Node.load ⟨"a", "ca"⟩ ["b"] ⟨2, none⟩ [⟨1, .set, "k", "v"⟩, ⟨2, .set, "k", "x"⟩] Database.empty).appendRequest
        2 ⟨1, 0, true⟩ = some (req, idx) ∧
      (Node.load ⟨"b", "cb"⟩ ["a"] ⟨1, none⟩ [⟨1, .set, "k", "v"⟩] Database.empty).handleAppend req =
        some (fl', rep) ∧ rep.success = true ∧ (0 : Int) ≤ 1 ∧ (1 : Int) < idx ∧
      (entryAt fl'.log 1).map (·.term) =
        (entryAt [⟨1, .set, "k", "v"⟩, (⟨2, .set, "k", "x"⟩ : LogRecord)] 1).map (·.term) :=
  ⟨_, _, _, _, rfl, rfl, rfl, by decide, by decide,
    @appendRequest_success_agrees
      (Node.load ⟨"a", "ca"⟩ ["b"] ⟨2, none⟩ [⟨1, .set, "k", "v"⟩, ⟨2, .set, "k", "x"⟩] Database.empty)
      (Node.load ⟨"b", "cb"⟩ ["a"] ⟨1, none⟩ [⟨1, .set, "k", "v"⟩] Database.empty) 2 ⟨1, 0, true⟩
      _ _ _ _ rfl rfl rfl 1 (by decide) (by decide)⟩

/-- `requestAppend` for one peer, run against that peer's `HandleAppend` with
no network in between: the reply comes back at once, and `Success = false` with
`prevLogIndex > 0` backs off and calls again, at most `fuel` calls in all.
Returns the leader, the follower and the error; `none` is a panic, of either
node, or running out of fuel. -/
def requestAppendTo (n fl : Node) (host : String) (term : Int) : Nat → Option (Node × Node × Option WriteError)
  | 0 => none
  | fuel + 1 => do
    let (_, f) ← n.otherNodes.find? (·.1 = host)
    let (req, idx) ← n.appendRequest term f
    match n.escapeHatch term with
    | some err => pure (n, fl, some err)
    | none =>
      let (fl, reply) ← fl.handleAppend req
      if reply.success then pure (n.appendSucceeded host idx, fl, none)
      else if req.prevLogIndex > 0 then requestAppendTo (n.backOff host) fl host term fuel
      else pure (n.setAvailable host false, fl, some .appendRangeMet)

/-- Where a back-off from `MatchIndex = k - 1` stops: the greatest index below
`k` at which the two logs hold entries of one term, or -1. -/
def lastAgreement (L F : List LogRecord) : Nat → Int
  | 0 => -1
  | k + 1 => if L[k]?.map (·.term) = F[k]?.map (·.term) then k else lastAgreement L F k

section Follower

variable {req : AppendRequest}

theorem resetElectionTimer_appendEpilogue : n.resetElectionTimer.appendEpilogue req = n.appendEpilogue req := by
  unfold appendEpilogue
  rw [resetElectionTimer_term]
  split <;> rfl

/-- A valid request whose previous entry does not match: the node takes the
request's term and keeps its log. -/
theorem handleAppend_of_mismatch (hv : fl.AcceptsLeader req) (hm : ¬fl.MatchesPrevious req)
    (hp : req.prevLogIndex < fl.log.length) :
    fl.handleAppend req = some (fl.appendEpilogue req, ⟨req.term, false⟩) := by
  have hm' : fl.checkPrevious req.prevLogIndex req.prevLogTerm = some false := by
    rcases h : fl.checkPrevious req.prevLogIndex req.prevLogTerm with _ | b
    · exact absurd (checkPrevious_eq_none.mp h) (by omega)
    · cases b
      · rfl
      · exact absurd (checkPrevious_eq_some_true.mp h) hm
  unfold handleAppend appendPrefix
  rw [validateAppend_eq_some_true.mpr hv, Option.some_bind]
  dsimp only
  rw [if_pos rfl,
    (show fl.resetElectionTimer.checkPrevious req.prevLogIndex req.prevLogTerm = some false from hm'),
    Option.some_bind]
  simp [resetElectionTimer_appendEpilogue, (appendEpilogue_accepts hv).1]

/-- A valid request whose previous entry matches, with `LeaderCommit` short of
the log it leaves: the reply is a success, the log keeps its first
`PrevLogIndex + 1` entries and has `appendedLength` entries. -/
theorem handleAppend_of_match (hv : fl.AcceptsLeader req) (hm : fl.MatchesPrevious req)
    (hp : -1 ≤ req.prevLogIndex) (hci : -1 ≤ fl.commitIndex) (hc : req.leaderCommit < fl.appendedLength req) :
    ∃ fl', fl.handleAppend req = some (fl', ⟨req.term, true⟩) ∧ fl'.term = req.term ∧
      (fl'.log.length : Int) = fl.appendedLength req ∧
      fl'.log.take (req.prevLogIndex + 1).toNat = fl.log.take (req.prevLogIndex + 1).toNat ∧
      (req.entries = [] → fl'.log = fl.log) := by
  obtain ⟨n1, hp1, hci1, hlen1⟩ := appendPrefix_accepted_some hv hm (by omega)
  obtain ⟨n2, ha⟩ : ∃ n2, n1.applyCommittedLogs req.leaderCommit = some n2 :=
    Option.ne_none_iff_exists'.mp (by rw [Ne, applyCommittedLogs_eq_none (hci1 ▸ hci)]; omega)
  obtain ⟨k, -, he, -⟩ := applyCommittedLogs_spec ha
  have h1 : n1.AcceptsLeader req ∧
      n1.log.take (req.prevLogIndex + 1).toNat = fl.log.take (req.prevLogIndex + 1).toNat ∧
      (req.entries = [] → n1.log = fl.log) := by
    have hp2 := hp1
    rw [appendPrefix_accepted hv hm] at hp2
    split_ifs at hp2 with hE
    · obtain rfl := (Prod.mk.inj (Option.some.inj hp2)).1
      exact ⟨hv, rfl, fun _ => rfl⟩
    · obtain ⟨S, hS, hSe⟩ := Option.map_eq_some'.mp hp2
      obtain rfl := (Prod.mk.inj hSe).1.symm
      have := hm.lt_length
      exact ⟨hv, reconcileLogs_take (by omega) (by omega) hE hS, fun h => absurd h hE⟩
  have hv2 : n2.AcceptsLeader req := by rw [he]; exact h1.1
  have hlog : (n2.appendEpilogue req).log = n1.log := by rw [appendEpilogue_log, he]
  refine ⟨n2.appendEpilogue req, ?_, (appendEpilogue_accepts hv2).1, by rw [hlog, hlen1], by rw [hlog, h1.2.1],
    fun h => by rw [hlog, h1.2.2 h]⟩
  unfold handleAppend
  rw [hp1]
  simp [ha, (appendEpilogue_accepts hv2).1]

end Follower

section Step

variable (hl : n.state = .leader) (ht : n.term = term)
  (hf : n.otherNodes.find? (·.1 = host) = some (host, f))
  (hm : -1 ≤ f.matchIndex) (hmL : f.matchIndex < n.log.length)
include hl ht hf hm hmL

/-- One call of `requestAppend` with the peer's `MatchIndex` in range: the
request goes out, and the reply decides. -/
theorem requestAppendTo_succ_eq (fl : Node) (fuel : Nat) :
    ∃ pt, (0 ≤ f.matchIndex → (entryAt n.log f.matchIndex).map (·.term) = some pt) ∧
    n.requestAppendTo fl host term (fuel + 1) =
      (fl.handleAppend
          ⟨term, n.raftNode, f.matchIndex, pt, n.commitIndex, n.log.drop (f.matchIndex + 1).toNat⟩).bind
        fun (fl', reply) => if reply.success then some (n.appendSucceeded host n.log.length, fl', none)
          else if f.matchIndex > 0 then (n.backOff host).requestAppendTo fl' host term fuel
          else some (n.setAvailable host false, fl', some .appendRangeMet) := by
  obtain ⟨pt, hreq, hpt⟩ := appendRequest_eq_some term hm hmL
  have hesc : n.escapeHatch term = none := by unfold escapeHatch; simp [hl, ht]
  exact ⟨pt, hpt, by simp only [requestAppendTo, hf, hreq, hesc, Option.bind_eq_bind, Option.some_bind]; rfl⟩


variable (hmF : f.matchIndex < fl.log.length)
  (hacc : fl.term < term ∨ term = fl.term ∧ fl.votedFor.map (·.id) = some n.raftNode.id)
include hmF hacc

/-- The logs agree at `MatchIndex`: the call succeeds. -/
theorem requestAppendTo_succ_of_agree (fuel : Nat) (hc : n.commitIndex < n.log.length) (hci : -1 ≤ fl.commitIndex)
    (hag : f.matchIndex < 0 ∨ n.log[f.matchIndex.toNat]?.map (·.term) = fl.log[f.matchIndex.toNat]?.map (·.term)) :
    ∃ fl', n.requestAppendTo fl host term (fuel + 1) = some (n.appendSucceeded host n.log.length, fl', none) ∧
      fl'.term = term ∧ fl'.log.take (f.matchIndex + 1).toNat = fl.log.take (f.matchIndex + 1).toNat ∧
      (f.matchIndex + 1 < n.log.length → fl'.log.length = n.log.length) ∧
      (n.log.length ≤ f.matchIndex + 1 → fl'.log = fl.log) := by
  obtain ⟨pt, hpt, hrun⟩ := requestAppendTo_succ_eq hl ht hf hm hmL fl fuel
  set req : AppendRequest :=
    ⟨term, n.raftNode, f.matchIndex, pt, n.commitIndex, n.log.drop (f.matchIndex + 1).toNat⟩
  have hv : fl.AcceptsLeader req := hacc
  have hM : fl.MatchesPrevious req := by
    by_cases h0 : f.matchIndex < 0
    · exact .inl h0
    · have h1 := hpt (by omega)
      unfold entryAt at h1
      rw [if_neg h0] at h1
      refine .inr ?_
      unfold entryAt
      rw [if_neg h0, ← h1, (hag.resolve_left h0).symm]
  have hE : (req.entries.length : Int) = n.log.length - (f.matchIndex + 1) := by
    simp only [req, List.length_drop]; omega
  obtain ⟨fl', hrep, hterm, hlen, htake, hnil⟩ := handleAppend_of_match hv hM (by simp only [req]; omega) hci (by
    unfold appendedLength
    split_ifs with h
    · rw [h] at hE; simp only [req]; simp at hE; omega
    · simp only [req] at hE ⊢; omega)
  refine ⟨fl', by rw [hrun, hrep]; rfl, hterm, htake, fun h => ?_,
    fun h => hnil (List.drop_eq_nil_of_le (by omega))⟩
  unfold appendedLength at hlen
  rw [if_neg fun h' => by rw [h'] at hE; simp at hE; omega] at hlen
  simp only [req] at hlen hE
  omega

/-- The logs disagree at `MatchIndex`: the follower takes the term and keeps
its log, and the leader backs off, or stops at index 0. -/
theorem requestAppendTo_succ_of_disagree (fuel : Nat)
    (hag : ¬(f.matchIndex < 0 ∨
      n.log[f.matchIndex.toNat]?.map (·.term) = fl.log[f.matchIndex.toNat]?.map (·.term))) :
    ∃ fl', fl'.term = term ∧ fl'.log = fl.log ∧ fl'.commitIndex = fl.commitIndex ∧
      (fl'.term < term ∨ term = fl'.term ∧ fl'.votedFor.map (·.id) = some n.raftNode.id) ∧
      n.requestAppendTo fl host term (fuel + 1) =
        if f.matchIndex > 0 then (n.backOff host).requestAppendTo fl' host term fuel
        else some (n.setAvailable host false, fl', some .appendRangeMet) := by
  obtain ⟨pt, hpt, hrun⟩ := requestAppendTo_succ_eq hl ht hf hm hmL fl fuel
  set req : AppendRequest :=
    ⟨term, n.raftNode, f.matchIndex, pt, n.commitIndex, n.log.drop (f.matchIndex + 1).toNat⟩
  have hv : fl.AcceptsLeader req := hacc
  have hM : ¬fl.MatchesPrevious req := by
    rintro (h | h)
    · exact hag (.inl h)
    · have h0 : ¬f.matchIndex < 0 := fun h0 => by unfold entryAt at h; rw [if_pos h0] at h; cases h
      have h1 := hpt (by omega)
      unfold entryAt at h h1
      rw [if_neg h0] at h h1
      exact hag (.inr (h1.trans h.symm))
  rw [handleAppend_of_mismatch hv hM (by simp only [req]; omega)] at hrun
  exact ⟨_, (appendEpilogue_accepts hv).1, appendEpilogue_log, appendEpilogue_commitIndex,
    (appendEpilogue_accepts hv).2, hrun⟩

end Step

@[simp] theorem backOff_log : (n.backOff host).log = n.log := rfl
@[simp] theorem backOff_state : (n.backOff host).state = n.state := rfl
@[simp] theorem backOff_term : (n.backOff host).term = n.term := rfl
@[simp] theorem backOff_commitIndex : (n.backOff host).commitIndex = n.commitIndex := rfl
@[simp] theorem backOff_raftNode : (n.backOff host).raftNode = n.raftNode := rfl

theorem lastAgreement_zero (L F : List LogRecord) : lastAgreement L F 0 = -1 := rfl

/-- `requestAppend` against a follower that accepts the leader's term, from a
`MatchIndex` inside both logs, returns after at most `MatchIndex + 2` calls.
It walks `MatchIndex` down to the last index `J` where the logs agree in term;
with no such index it stops at index 0 with `ErrAppendRangeMet`, and only a
`MatchIndex` of -1 tries -1. On success the peer is at `len(L)`, and the
follower keeps its first `J + 1` entries and has `len(L)` entries, unless
nothing was sent, when its log stays as it was. -/
theorem requestAppendTo_backOff {fuel : Nat} (hl : n.state = .leader) (ht : n.term = term)
    (hc : n.commitIndex < n.log.length) (hf : n.otherNodes.find? (·.1 = host) = some (host, f))
    (hm : -1 ≤ f.matchIndex) (hmL : f.matchIndex < n.log.length) (hmF : f.matchIndex < fl.log.length)
    (hci : -1 ≤ fl.commitIndex)
    (hacc : fl.term < term ∨ term = fl.term ∧ fl.votedFor.map (·.id) = some n.raftNode.id)
    (hfuel : f.matchIndex + 2 ≤ fuel) :
    ∃ n' fl', fl'.term = term ∧
      let J := lastAgreement n.log fl.log (f.matchIndex + 1).toNat
      if 0 ≤ f.matchIndex ∧ J = -1 then
        n.requestAppendTo fl host term fuel = some (n', fl', some .appendRangeMet) ∧
        n'.otherNodes.find? (·.1 = host) = some (host, { f with matchIndex := 0, available := false }) ∧
        fl'.log = fl.log
      else
        n.requestAppendTo fl host term fuel = some (n', fl', none) ∧
        n'.otherNodes.find? (·.1 = host) =
          some (host, { f with matchIndex := n.log.length - 1, nextIndex := n.log.length, available := true }) ∧
        fl'.log.take (J + 1).toNat = fl.log.take (J + 1).toNat ∧
        (J + 1 < n.log.length → fl'.log.length = n.log.length) ∧
        (n.log.length ≤ J + 1 → fl'.log = fl.log) := by
  obtain ⟨k, hk⟩ : ∃ k : Nat, f.matchIndex + 1 = k := ⟨(f.matchIndex + 1).toNat, by omega⟩
  induction k using Nat.strongRecOn generalizing n fl f fuel with
  | ind k ih =>
    obtain ⟨fuel, rfl⟩ : ∃ m, fuel = m + 1 := ⟨fuel - 1, by omega⟩
    by_cases hag : f.matchIndex < 0 ∨
        n.log[f.matchIndex.toNat]?.map (·.term) = fl.log[f.matchIndex.toNat]?.map (·.term)
    · -- the logs agree at `MatchIndex`, or it is -1: the call succeeds there
      obtain ⟨fl', hrun, hterm, htake, hlen, hnil⟩ :=
        requestAppendTo_succ_of_agree hl ht hf hm hmL hmF hacc fuel hc hci hag
      have hJ : lastAgreement n.log fl.log (f.matchIndex + 1).toNat = f.matchIndex := by
        by_cases h0 : f.matchIndex < 0
        · rw [show (f.matchIndex + 1).toNat = 0 by omega, lastAgreement_zero]; omega
        · rw [show (f.matchIndex + 1).toNat = f.matchIndex.toNat + 1 by omega, lastAgreement,
            if_pos (hag.resolve_left h0)]
          omega
      refine ⟨n.appendSucceeded host n.log.length, fl', hterm, ?_⟩
      dsimp only
      rw [hJ, if_neg (by omega)]
      exact ⟨hrun, find?_appendSucceeded hf, htake, hlen, hnil⟩
    -- they disagree: the follower takes the term and the leader backs off, down to index 0
    obtain ⟨fl', hterm, hlog, hci', hacc', hrun⟩ :=
      requestAppendTo_succ_of_disagree hl ht hf hm hmL hmF hacc fuel hag
    have hJ : lastAgreement n.log fl.log (f.matchIndex + 1).toNat =
        lastAgreement n.log fl.log f.matchIndex.toNat := by
      rw [show (f.matchIndex + 1).toNat = f.matchIndex.toNat + 1 by omega, lastAgreement,
        if_neg fun h => hag (.inr h)]
    by_cases hm0 : f.matchIndex = 0
    · -- at index 0 the back-off stops with `ErrAppendRangeMet`
      rw [if_neg (by omega)] at hrun
      refine ⟨n.setAvailable host false, fl', hterm, ?_⟩
      dsimp only
      rw [hJ, hm0, show (0 : Int).toNat = 0 from rfl, lastAgreement_zero, if_pos ⟨Int.le_refl 0, rfl⟩]
      exact ⟨hrun, by rw [find?_setAvailable hf, ← hm0], hlog⟩
    -- one index back, and the same again
    rw [if_pos (by omega)] at hrun
    obtain ⟨n', fl'', hterm', h⟩ := ih f.matchIndex.toNat (by omega)
      (f := { f with matchIndex := f.matchIndex - 1 }) (n := n.backOff host) hl ht hc (find?_backOff hf)
      (by dsimp only; omega) (by dsimp only; simp; omega)
      (by rw [hlog]; dsimp only; omega) (hci' ▸ hci) (by simpa using hacc')
      (show f.matchIndex - 1 + 2 ≤ (fuel : Int) by push_cast at hfuel; omega) (by dsimp only; omega)
    refine ⟨n', fl'', hterm', ?_⟩
    simp only [backOff_log, hlog, show (f.matchIndex - 1 + 1).toNat = f.matchIndex.toNat by omega, ← hrun] at h
    dsimp only
    rw [hJ]
    by_cases hz : lastAgreement n.log fl.log f.matchIndex.toNat = -1
    · rw [if_pos ⟨by omega, hz⟩] at h ⊢
      exact h
    · rw [if_neg fun h' => hz h'.2] at h ⊢
      exact h

/-- The logs diverge at index 1: one back-off, and the follower ends with two
entries, as the leader has. -/
theorem requestAppendTo_backOff_on_diverged_tail :
    ∃ n' fl', ({ Node.load ⟨"a", "ca"⟩ ["b"] ⟨2, none⟩ [⟨1, .set, "k", "v"⟩, ⟨2, .set, "k", "x"⟩]
          Database.empty with state := .leader, otherNodes := [("b", ⟨2, 1, true⟩)] } : Node).requestAppendTo
        (Node.load ⟨"b", "cb"⟩ ["a"] ⟨1, none⟩ [⟨1, .set, "k", "v"⟩, ⟨1, .set, "k", "w"⟩] Database.empty)
        "b" 2 3 = some (n', fl', none) ∧ fl'.log.length = 2 := by
  obtain ⟨n', fl', -, h⟩ := @requestAppendTo_backOff
    { Node.load ⟨"a", "ca"⟩ ["b"] ⟨2, none⟩ [⟨1, .set, "k", "v"⟩, ⟨2, .set, "k", "x"⟩]
        Database.empty with state := .leader, otherNodes := [("b", ⟨2, 1, true⟩)] }
    (Node.load ⟨"b", "cb"⟩ ["a"] ⟨1, none⟩ [⟨1, .set, "k", "v"⟩, ⟨1, .set, "k", "w"⟩] Database.empty)
    "b" 2 ⟨2, 1, true⟩ 3 rfl rfl (by decide) (by decide) (by decide) (by decide) (by decide) (by decide)
    (by decide) (by decide)
  dsimp only at h
  rw [if_neg (by decide)] at h
  exact ⟨n', fl', h.1, h.2.2.2.1 (by decide)⟩

/-- The logs diverge at index 0: the back-off stops there with
`ErrAppendRangeMet` and never tries `PrevLogIndex = -1`. -/
theorem requestAppendTo_range_met_at_first_index :
    Option.map (·.2.2) (({ Node.load ⟨"a", "ca"⟩ ["b"] ⟨2, none⟩ [⟨2, .set, "k", "v"⟩] Database.empty with
        state := .leader, otherNodes := [("b", ⟨1, 0, true⟩)] } : Node).requestAppendTo
      (Node.load ⟨"b", "cb"⟩ ["a"] ⟨1, none⟩ [⟨1, .set, "k", "w"⟩] Database.empty) "b" 2 2) =
      some (some .appendRangeMet) := by
  decide

end Node
end LeifDb
