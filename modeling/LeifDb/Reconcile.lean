import LeifDb.Node
import Mathlib.Tactic.SplitIfs

/-! `reconcileLogs`, exactly. Its loop stops at the first offset where the log
and the request's entries hold different terms, at the end of the log, or at the
end of the entries; every result is a splice of the two (`reconcileLogs_splice`).
When the entries end first the log is cut one past them, even if it already held
them all. -/
namespace LeifDb

/-- Offset `j` of the two lists is a conflict: both hold an entry there, of different terms. -/
def Conflict (ov es : List LogRecord) (j : Nat) : Prop :=
  ∃ a b, ov[j]? = some a ∧ es[j]? = some b ∧ a.term ≠ b.term

theorem Conflict.lt_left {ov es : List LogRecord} {j : Nat} (h : Conflict ov es j) : j < ov.length :=
  let ⟨_, _, ha, _⟩ := h
  (List.getElem?_eq_some_iff.mp ha).1

theorem Conflict.lt_right {ov es : List LogRecord} {j : Nat} (h : Conflict ov es j) : j < es.length :=
  let ⟨_, _, _, hb, _⟩ := h
  (List.getElem?_eq_some_iff.mp hb).1

@[simp] theorem conflict_nil_left (es : List LogRecord) (j : Nat) : ¬Conflict [] es j := by
  simp [Conflict]

@[simp] theorem conflict_nil_right (ov : List LogRecord) (j : Nat) : ¬Conflict ov [] j := by
  simp [Conflict]

@[simp] theorem conflict_cons_zero (r e : LogRecord) (ov es : List LogRecord) :
    Conflict (r :: ov) (e :: es) 0 ↔ r.term ≠ e.term := by
  simp [Conflict]

@[simp] theorem conflict_cons_succ (r e : LogRecord) (ov es : List LogRecord) (j : Nat) :
    Conflict (r :: ov) (e :: es) (j + 1) ↔ Conflict ov es j := by
  simp [Conflict]

namespace Node

/-- Where the loop of `reconcileLogs` stops, at offset `i`: at the first
conflict `k`, at the end of the log, or at the end of the entries. -/
theorem mismatchIndex_cases (prev : Int) :
    ∀ (i : Nat) (ov es : List LogRecord), ∃ k, (∀ j < k, ¬Conflict ov es j) ∧
      (Conflict ov es k ∧ mismatchIndex prev i ov es = prev + 1 + i + k ∨
       k = ov.length ∧ k ≤ es.length ∧ mismatchIndex prev i ov es = -1 ∨
       k = es.length ∧ k < ov.length ∧ mismatchIndex prev i ov es = prev + i + k)
  | i, [], es => ⟨0, fun _ h => absurd h (Nat.not_lt_zero _), .inr (.inl ⟨rfl, Nat.zero_le _, rfl⟩)⟩
  | i, r :: rest, [] =>
    ⟨0, fun _ h => absurd h (Nat.not_lt_zero _), .inr (.inr ⟨rfl, by simp, by simp [mismatchIndex]⟩)⟩
  | i, r :: rest, e :: es => by
    by_cases ht : r.term = e.term
    · obtain ⟨k, hk, hc⟩ := mismatchIndex_cases prev (i + 1) rest es
      refine ⟨k + 1, fun j hj => ?_, ?_⟩
      · cases j with
        | zero => simpa using ht
        | succ j => simpa using hk j (by omega)
      simp only [mismatchIndex, ht, ne_eq, not_true_eq_false, if_false, List.length_cons,
        conflict_cons_succ]
      push_cast at hc ⊢
      rcases hc with ⟨h1, h2⟩ | ⟨h1, h2, h3⟩ | ⟨h1, h2, h3⟩
      · exact .inl ⟨h1, by rw [h2]; omega⟩
      · exact .inr (.inl ⟨by omega, by omega, h3⟩)
      · exact .inr (.inr ⟨by omega, by omega, by rw [h3]; omega⟩)
    · exact ⟨0, fun _ h => absurd h (Nat.not_lt_zero _),
        .inl ⟨(conflict_cons_zero ..).mpr ht, by simp [mismatchIndex, ht]⟩⟩

variable {L : List LogRecord} {req : AppendRequest} {p : Nat}

/-- A request with `PrevLogIndex < -1` makes `reconcileLogs` slice from a negative index. -/
theorem reconcileLogs_eq_none (h : req.prevLogIndex < -1) : reconcileLogs L req = none := by
  unfold reconcileLogs
  have hs : slice L (req.prevLogIndex + 1) L.length = none := by unfold slice; rw [if_neg (by omega)]
  simp only [Option.bind_eq_bind, Option.pure_def]
  rw [if_pos (by omega), hs]
  rfl

/-- `reconcileLogs` with its first slice done: the log from `PrevLogIndex + 1`
is scanned whether or not the Go code's guard lets the loop run, since an empty
scan gives `-1` too. -/
theorem reconcileLogs_eq_bind (hp : req.prevLogIndex + 1 = p) (hpL : p ≤ L.length) :
    reconcileLogs L req =
      ((if mismatchIndex req.prevLogIndex 0 (L.drop p) req.entries ≥ 0 then
          slice L 0 (mismatchIndex req.prevLogIndex 0 (L.drop p) req.entries) else some L).bind fun L' =>
        (slice req.entries (L'.length - 1 - req.prevLogIndex) req.entries.length).map (L' ++ ·)) := by
  unfold reconcileLogs
  simp only [Option.bind_eq_bind, Option.pure_def, Option.some_bind]
  by_cases h1 : req.prevLogIndex < L.length - 1
  · rw [if_pos h1, slice_eq_drop (by omega) hpL, Option.some_bind]
    split_ifs <;> simp [Option.map_eq_bind, Function.comp_def]
  · rw [if_neg h1, List.drop_eq_nil_of_le (by omega)]
    simp [mismatchIndex, Option.map_eq_bind, Function.comp_def]

/-- The three ways `reconcileLogs` ends, with `k` the offset where its loop
stopped and no conflict before it. -/
theorem reconcileLogs_cases (hp : req.prevLogIndex + 1 = p) (hpL : p ≤ L.length) (hE : req.entries ≠ []) :
    ∃ k, (∀ j < k, ¬Conflict (L.drop p) req.entries j) ∧
      (Conflict (L.drop p) req.entries k ∧
        reconcileLogs L req = some (L.take (p + k) ++ req.entries.drop k) ∨
       L.length ≤ p + req.entries.length ∧ k = L.length - p ∧
        reconcileLogs L req = some (L ++ req.entries.drop (L.length - p)) ∨
       p + req.entries.length < L.length ∧ k = req.entries.length ∧
        reconcileLogs L req =
          some (L.take (p + req.entries.length - 1) ++ req.entries.drop (req.entries.length - 1))) := by
  have hE0 : 0 < req.entries.length := List.length_pos.mpr hE
  obtain ⟨k, hk, hc⟩ := mismatchIndex_cases req.prevLogIndex 0 (L.drop p) req.entries
  rw [List.length_drop] at hc
  refine ⟨k, hk, ?_⟩
  rw [reconcileLogs_eq_bind hp hpL]
  rcases hc with ⟨hc, hm⟩ | ⟨rfl, hle, hm⟩ | ⟨rfl, hlt, hm⟩ <;> rw [hm]
  · -- a conflict at `k`: the log is cut at `p + k`, the entries resume at `k`
    have h1 := hc.lt_left
    have h2 := hc.lt_right
    rw [List.length_drop] at h1
    rw [if_pos (by omega), slice_zero_eq_take (k := p + k) (by omega) (by omega), Option.some_bind,
      List.length_take, Nat.min_eq_left (by omega),
      slice_eq_drop (k := k) (by omega) (by omega), Option.map_some']
    exact .inl ⟨hc, rfl⟩
  · -- the log ran out first: it is kept, and the rest of the entries follow
    rw [if_neg (by omega), Option.some_bind, slice_eq_drop (k := L.length - p) (by omega) (by omega),
      Option.map_some']
    exact .inr (.inl ⟨by omega, rfl, rfl⟩)
  · -- the entries ran out first: the log is cut one before their end
    rw [if_pos (by omega), slice_zero_eq_take (k := p + req.entries.length - 1) (by omega) (by omega),
      Option.some_bind, List.length_take, Nat.min_eq_left (by omega),
      slice_eq_drop (k := req.entries.length - 1) (by omega) (by omega), Option.map_some']
    exact .inr (.inr ⟨by omega, rfl, rfl⟩)

private theorem drop_length_pred {l : List LogRecord} (h : l ≠ []) : l.drop (l.length - 1) = [l.getLast h] := by
  have h0 : 0 < l.length := List.length_pos.mpr h
  rw [List.drop_eq_getElem_cons (by omega), List.drop_of_length_le (by omega), List.getLast_eq_getElem]

/-- `reconcileLogs`, for `-1 ≤ PrevLogIndex < len(L)` and non-empty entries `E`:
at the first conflict `k` it keeps `L[0..PrevLogIndex+k]` and appends `E[k..]`;
with no conflict it appends what `E` has past the log, or, when the log goes on
past `E`, cuts the log to `PrevLogIndex + len(E)` entries and appends the last
entry of `E`. -/
theorem reconcileLogs_spec (hp : req.prevLogIndex + 1 = p) (hpL : p ≤ L.length) (hE : req.entries ≠ []) :
    (∀ k, Conflict (L.drop p) req.entries k → (∀ j < k, ¬Conflict (L.drop p) req.entries j) →
      reconcileLogs L req = some (L.take (p + k) ++ req.entries.drop k)) ∧
    ((∀ j, ¬Conflict (L.drop p) req.entries j) →
      reconcileLogs L req = some (if L.length ≤ p + req.entries.length then L ++ req.entries.drop (L.length - p)
        else L.take (p + req.entries.length - 1) ++ [req.entries.getLast hE])) := by
  obtain ⟨k', hk', hc | ⟨hle, rfl, h⟩ | ⟨hlt, rfl, h⟩⟩ := reconcileLogs_cases hp hpL hE
  · obtain ⟨hc, h⟩ := hc
    refine ⟨fun k hk hleast => ?_, fun hno => absurd hc (hno k')⟩
    obtain rfl : k = k' := by
      rcases Nat.lt_trichotomy k k' with hlt | heq | hgt
      · exact absurd hk (hk' k hlt)
      · exact heq
      · exact absurd hc (hleast k' hgt)
    exact h
  · refine ⟨fun k hk _ => absurd hk (hk' k ?_), fun _ => by rw [if_pos hle, h]⟩
    have := hk.lt_left
    rwa [List.length_drop] at this
  · refine ⟨fun k hk _ => absurd hk (hk' k hk.lt_right), fun _ => ?_⟩
    rw [if_neg (by omega), h, drop_length_pred hE]

theorem reconcileLogs_spec_on_conflict :
    reconcileLogs [⟨1, .set, "k", "v"⟩, ⟨1, .set, "k", "w"⟩] ⟨2, ⟨"c", "cc"⟩, 0, 1, 0, [⟨2, .set, "k", "x"⟩]⟩ =
      some [⟨1, .set, "k", "v"⟩, ⟨2, .set, "k", "x"⟩] :=
  (reconcileLogs_spec (p := 1) (by rfl) (by decide) (by decide)).1 0 ⟨_, _, rfl, rfl, by decide⟩
    fun j hj => absurd hj (Nat.not_lt_zero j)

/-- The log already holds the one entry sent, and one more: `reconcileLogs`
drops that one. -/
theorem reconcileLogs_cuts_covered_log :
    reconcileLogs [⟨1, .set, "k", "v"⟩, ⟨1, .set, "k", "w"⟩] ⟨1, ⟨"a", "ca"⟩, -1, 0, -1, [⟨1, .set, "k", "v"⟩]⟩ =
      some [⟨1, .set, "k", "v"⟩] := by
  decide

/-- Every result of `reconcileLogs` is a splice: `L` up to `PrevLogIndex + k`,
then `E` from `k`, with no conflict before `k`. -/
theorem reconcileLogs_splice (hp : req.prevLogIndex + 1 = p) (hpL : p ≤ L.length) (hE : req.entries ≠ []) :
    ∃ k, k ≤ L.length - p ∧ k ≤ req.entries.length ∧ (∀ j < k, ¬Conflict (L.drop p) req.entries j) ∧
      reconcileLogs L req = some (L.take (p + k) ++ req.entries.drop k) := by
  obtain ⟨k, hk, ⟨hc, h⟩ | ⟨hle, rfl, h⟩ | ⟨hlt, rfl, h⟩⟩ := reconcileLogs_cases hp hpL hE
  · have h1 := hc.lt_left
    rw [List.length_drop] at h1
    exact ⟨k, by omega, Nat.le_of_lt hc.lt_right, hk, h⟩
  · exact ⟨L.length - p, Nat.le_refl _, by omega, hk, by rw [h, Nat.add_sub_cancel' hpL, List.take_length]⟩
  · exact ⟨req.entries.length - 1, by omega, by omega, fun j hj => hk j (by omega),
      by rw [h, Nat.add_sub_assoc (List.length_pos.mpr hE)]⟩

/-- Past a stretch without conflict, a splice agrees in term with the entries everywhere. -/
theorem not_conflict_splice {ov es : List LogRecord} {k : Nat} (hk : k ≤ ov.length)
    (h : ∀ j < k, ¬Conflict ov es j) (j : Nat) : ¬Conflict (ov.take k ++ es.drop k) es j := by
  rintro ⟨a, b, ha, hb, hab⟩
  by_cases hj : j < k
  · rw [List.getElem?_append_left (by rw [List.length_take]; omega), List.getElem?_take, if_pos hj] at ha
    exact h j hj ⟨a, b, ha, hb, hab⟩
  · rw [List.getElem?_append_right (by rw [List.length_take]; omega), List.length_take,
      Nat.min_eq_left hk, List.getElem?_drop, Nat.add_sub_cancel' (by omega), hb] at ha
    exact hab (congrArg LogRecord.term (Option.some.inj ha)).symm

section Splice

variable {E : List LogRecord} {k : Nat}

theorem splice_length (hpL : p ≤ L.length) (hk : k ≤ L.length - p) (hkE : k ≤ E.length) :
    (L.take (p + k) ++ E.drop k).length = p + E.length := by
  simp only [List.length_append, List.length_take, List.length_drop]
  omega

theorem splice_take (hpL : p ≤ L.length) :
    (L.take (p + k) ++ E.drop k).take p = L.take p := by
  rw [List.take_append_of_le_length (by rw [List.length_take]; omega), List.take_take, Nat.min_eq_left (by omega)]

theorem splice_drop (hpL : p ≤ L.length) :
    (L.take (p + k) ++ E.drop k).drop p = (L.drop p).take k ++ E.drop k := by
  rw [List.drop_append_of_le_length (by rw [List.length_take]; omega), List.drop_take, Nat.add_sub_cancel_left]

end Splice

/-- What `reconcileLogs` returns has `PrevLogIndex + 1 + len(E)` entries. -/
theorem reconcileLogs_length {S : List LogRecord} (hp : req.prevLogIndex + 1 = p) (hpL : p ≤ L.length)
    (hE : req.entries ≠ []) (h : reconcileLogs L req = some S) : S.length = p + req.entries.length := by
  obtain ⟨k, hk, hkE, -, hr⟩ := reconcileLogs_splice hp hpL hE
  rw [hr, Option.some.injEq] at h
  rw [← h, splice_length hpL hk hkE]

/-- `reconcileLogs` keeps the log up to `PrevLogIndex`. -/
theorem reconcileLogs_take {S : List LogRecord} (hp : req.prevLogIndex + 1 = p) (hpL : p ≤ L.length)
    (hE : req.entries ≠ []) (h : reconcileLogs L req = some S) : S.take p = L.take p := by
  obtain ⟨k, -, -, -, hr⟩ := reconcileLogs_splice hp hpL hE
  rw [hr, Option.some.injEq] at h
  rw [← h, splice_take hpL]

/-- Without a conflict, and no longer than `ov`, `es` has the terms `ov` starts with. -/
theorem map_term_prefix {ov es : List LogRecord} (hl : es.length ≤ ov.length) (h : ∀ j, ¬Conflict ov es j) :
    es.map (·.term) <+: ov.map (·.term) := by
  rw [List.prefix_iff_eq_take]
  refine List.ext_getElem (by simp only [List.length_map, List.length_take]; omega) fun j h1 _ => ?_
  rw [List.length_map] at h1
  simp only [List.getElem_map, List.getElem_take]
  exact Classical.not_not.mp fun hne =>
    h j ⟨_, _, List.getElem?_eq_getElem (by omega), List.getElem?_eq_getElem h1, Ne.symm hne⟩

/-- Past `PrevLogIndex`, what `reconcileLogs` returns holds entries of the terms of the entries sent. -/
theorem reconcileLogs_terms {S : List LogRecord} (hp : req.prevLogIndex + 1 = p) (hpL : p ≤ L.length)
    (hE : req.entries ≠ []) (h : reconcileLogs L req = some S) :
    req.entries.map (·.term) <+: (S.drop p).map (·.term) := by
  obtain ⟨k, hk, hkE, hno, hr⟩ := reconcileLogs_splice hp hpL hE
  rw [hr, Option.some.injEq] at h
  subst h
  rw [splice_drop hpL]
  exact map_term_prefix (by simp only [List.length_append, List.length_take, List.length_drop]; omega)
    (not_conflict_splice (by rw [List.length_drop]; omega) hno)

end Node
end LeifDb
