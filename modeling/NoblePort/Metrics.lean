import Mathlib.Data.List.GetD
import Mathlib.Data.Rat.Floor
import NoblePort.Exact
import NoblePort.Grouping
import NoblePort.Serial

/-!
# The gate summary

`_percentile` and `gate_latency_summary` of `app/db/metrics.py` over the rows that
calls of `record_invoke_latency` leave. Floats are their exact values; an index
that is out of range is `none`.
-/
namespace NoblePort.Metrics

open Coroutine Exact NoblePort.Values NoblePort.Store NoblePort.Records NoblePort.System

/-- `xs[i]`, counted from the end when `i` is negative. -/
def index {α : Type} (xs : List α) (i : ℤ) : Option α :=
  if 0 ≤ i then xs[i.toNat]?
  else if 0 ≤ xs.length + i then xs[(xs.length + i).toNat]? else none

/-- `int(x)` drops the fractional part. -/
def int (x : ℚ) : ℤ := if 0 ≤ x then ⌊x⌋ else ⌈x⌉

def percentile (sortedVals : List ℚ) (pct : ℚ) : Option ℚ :=
  if sortedVals = [] then some 0
  else if sortedVals.length = 1 then index sortedVals 0
  else
    let rank := pct / 100 * (sortedVals.length - 1)
    let lo := ⌊rank⌋
    let hi := ⌈rank⌉
    if lo = hi then index sortedVals (int rank)
    else do
      let low ← index sortedVals lo
      let high ← index sortedVals hi
      return low + (high - low) * (rank - lo)

structure Summary where
  count : ℕ
  p50Ms : ℚ
  p95Ms : ℚ
  minMs : ℚ
  maxMs : ℚ
  deriving DecidableEq, Repr

def PyFloat.exactValue : PyFloat → Option ℚ
  | .finite val _ => some val
  | _ => none

/-- The entry of one name, from its values. -/
def entry (vals : List ℚ) : Option Summary := do
  let vals := vals.insertionSort (· ≤ ·)
  let p50 ← percentile vals 50
  let p95 ← percentile vals 95
  let least ← index vals 0
  let greatest ← index vals (-1)
  return ⟨vals.length, roundTo 3 p50, roundTo 3 p95, roundTo 3 least, roundTo 3 greatest⟩

/-- `by_name.setdefault(name, []).append(ms)` for each row. -/
def byName (readings : List (String × ℚ)) : List (String × List ℚ) :=
  Grouping.tally (fun vals ms => vals ++ [ms]) [] readings

/-- `gate_latency_summary` on the rows that `fetch_all` gives. -/
def gateLatencySummary (rows : List MetricRow) : Option (List (String × Summary)) := do
  let readings ← rows.mapM fun r => (PyFloat.exactValue r.metricMs).map fun ms => (r.metricName, ms)
  (byName readings).mapM fun group => (entry group.2).map fun summary => (group.1, summary)

/-- One call of `record_invoke_latency`. -/
structure Measurement where
  threadId : Option String
  eventId : Option String
  metricMs : ℚ
  repr : String
  outcome : String
  metricName : String

namespace Measurement

def program (m : Measurement) (uuid : String) : Async String :=
  recordInvokeLatency m.threadId m.eventId (.finite m.metricMs m.repr) m.outcome m.metricName uuid

def row (m : Measurement) (uuid : String) : MetricRow :=
  ⟨uuid, m.threadId, m.eventId, m.metricName, .finite m.metricMs m.repr, m.outcome⟩

def reading (m : Measurement) : String × ℚ := (m.metricName, m.metricMs)

end Measurement

/-- The calls one after another; the `k`-th draw of `uuid4` is `uuids k`. -/
def record (uuids : ℕ ↪ String) : ℕ → List Measurement → World → World
  | _, [], w => w
  | k, m :: ms, w => record uuids (k + 1) ms (call (m.program (uuids k)) w).2

/-- An order in which the database happens to visit the rows. -/
structure Visit where
  order : List MetricRow → List MetricRow
  perm : ∀ rows, (order rows).Perm rows

/-- `SELECT metric_name, metric_ms FROM agent_metrics ORDER BY metric_name` -/
def fetchAll (collation : LinearOrder String) (visit : Visit) (w : World) : List MetricRow :=
  (visit.order w.agentMetrics).insertionSort fun a b => collation.le a.metricName b.metricName

section Percentile

variable {vals : List ℚ}

/-- The sorted values as a sequence, its last value repeated. -/
def clamped (vals : List ℚ) (i : ℕ) : ℚ := vals.getD (min i (vals.length - 1)) 0

theorem index_natCast (hne : vals ≠ []) {i : ℕ} (hi : i ≤ vals.length - 1) :
    index vals i = some (clamped vals i) := by
  have hpos : 0 < vals.length := List.length_pos_of_ne_nil hne
  have hlt : i < vals.length := by omega
  simp [index, clamped, min_eq_left hi, List.getElem?_eq_getElem hlt]

theorem index_neg_one (hne : vals ≠ []) : index vals (-1) = some (clamped vals (vals.length - 1)) := by
  have hpos : 0 < vals.length := List.length_pos_of_ne_nil hne
  have hlast : ((vals.length : ℤ) + -1) = ((vals.length - 1 : ℕ) : ℤ) := by omega
  rw [← index_natCast hne le_rfl, index, if_neg (by decide), hlast, if_pos (by omega), index,
    if_pos (by omega)]

theorem clamped_mem (hne : vals ≠ []) (i : ℕ) : clamped vals i ∈ vals := by
  have hpos : 0 < vals.length := List.length_pos_of_ne_nil hne
  have hlt : min i (vals.length - 1) < vals.length := by omega
  rw [clamped, List.getD_eq_getElem _ _ hlt]
  exact List.getElem_mem hlt

theorem clamped_eq_getElem {i : ℕ} (hi : i < vals.length) : clamped vals i = vals[i] := by
  rw [clamped, min_eq_left (by omega), List.getD_eq_getElem _ _ hi]

theorem clamped_mono (hsorted : vals.Pairwise (· ≤ ·)) : Monotone (clamped vals) := by
  intro i j hij
  by_cases hne : vals = []
  · simp [clamped, hne]
  · have hpos : 0 < vals.length := List.length_pos_of_ne_nil hne
    have hj : min j (vals.length - 1) < vals.length := by omega
    have hmin : min i (vals.length - 1) ≤ min j (vals.length - 1) := by omega
    rw [clamped, clamped, List.getD_eq_getElem _ _ hj, List.getD_eq_getElem _ _ (by omega)]
    rcases hmin.eq_or_lt with heq | hlt
    · simp only [heq, le_refl]
    · exact List.pairwise_iff_getElem.mp hsorted _ _ _ hj hlt

/-- The indices are in range at every size, and the value lies on the line between them. -/
theorem percentile_eq (hne : vals ≠ []) {pct : ℚ} (hlow : 0 ≤ pct) (hhigh : pct ≤ 100) :
    percentile vals pct = some (lerp (clamped vals) (pct / 100 * (vals.length - 1 : ℕ))) := by
  have hpos : 0 < vals.length := List.length_pos_of_ne_nil hne
  have hlast : ((vals.length : ℚ) - 1) = ((vals.length - 1 : ℕ) : ℚ) := by
    rw [Nat.cast_sub hpos, Nat.cast_one]
  by_cases hone : vals.length = 1
  · rw [percentile, if_neg hne, if_pos hone, hone]
    have hzero : lerp (clamped vals) (0 : ℕ) = clamped vals 0 := lerp_natCast _ 0
    simpa [← hzero] using index_natCast hne (i := 0) (by omega)
  · rw [percentile, if_neg hne, if_neg hone, hlast]
    generalize hrank : pct / 100 * (vals.length - 1 : ℕ) = rank
    have hnonneg : 0 ≤ rank := by
      rw [← hrank]
      positivity
    have hle : rank ≤ (vals.length - 1 : ℕ) := by
      rw [← hrank]
      exact mul_le_of_le_one_left (Nat.cast_nonneg _) (by linarith)
    have hfloor : ⌊rank⌋ = (⌊rank⌋₊ : ℤ) := (Int.natCast_floor_eq_floor hnonneg).symm
    have hlo : ⌊rank⌋₊ ≤ vals.length - 1 := Nat.floor_le_of_le hle
    by_cases heq : ⌊rank⌋ = ⌈rank⌉
    · have hwhole : rank = ⌊rank⌋₊ := by
        apply le_antisymm _ (Nat.floor_le hnonneg)
        calc
          rank ≤ ⌈rank⌉ := Int.le_ceil rank
          _ = ⌊rank⌋₊ := by rw [← heq, hfloor, Int.cast_natCast]
      simp only [heq, if_true, int, if_pos hnonneg]
      rw [← heq, hfloor, index_natCast hne hlo, lerp, sub_eq_zero.mpr hwhole, mul_zero, add_zero]
    · have hceil : ⌈rank⌉ = (⌊rank⌋₊ + 1 : ℕ) := by
        have hle := Int.floor_le_ceil rank
        have hsucc := Int.ceil_le_floor_add_one rank
        omega
      have hhi : ⌊rank⌋₊ + 1 ≤ vals.length - 1 := by
        have hbound : ⌈rank⌉ ≤ (vals.length - 1 : ℕ) := Int.ceil_le.mpr (by exact_mod_cast hle)
        omega
      simp only [heq, if_false]
      rw [hceil, hfloor, index_natCast hne hlo, index_natCast hne hhi]
      rfl

end Percentile

section Entries

/-- The sorted values of one name. -/
def sorted (vals : List ℚ) : List ℚ := vals.insertionSort (· ≤ ·)

theorem pairwise_sorted (vals : List ℚ) : (sorted vals).Pairwise (· ≤ ·) :=
  List.pairwise_insertionSort (· ≤ ·) vals

@[simp] theorem mem_sorted {vals : List ℚ} {v : ℚ} : v ∈ sorted vals ↔ v ∈ vals :=
  List.mem_insertionSort (· ≤ ·)

@[simp] theorem length_sorted (vals : List ℚ) : (sorted vals).length = vals.length :=
  List.length_insertionSort (· ≤ ·) vals

theorem sorted_ne_nil {vals : List ℚ} (hne : vals ≠ []) : sorted vals ≠ [] := by
  rwa [← List.length_pos_iff, length_sorted, List.length_pos_iff]

theorem sorted_perm {vals vals' : List ℚ} (h : vals.Perm vals') : sorted vals = sorted vals' := by
  have hperm : (sorted vals).Perm (sorted vals') :=
    ((List.perm_insertionSort _ vals).trans h).trans (List.perm_insertionSort _ vals').symm
  exact hperm.eq_of_pairwise' (pairwise_sorted vals) (pairwise_sorted vals')

/-- The value at a share of the way through the sorted values. -/
def quantile (vals : List ℚ) (share : ℚ) : ℚ :=
  lerp (clamped (sorted vals)) (share * (vals.length - 1 : ℕ))

def summaryOf (vals : List ℚ) : Summary :=
  ⟨vals.length, roundTo 3 (quantile vals (50 / 100)), roundTo 3 (quantile vals (95 / 100)),
    roundTo 3 (clamped (sorted vals) 0), roundTo 3 (clamped (sorted vals) (vals.length - 1))⟩

variable {vals : List ℚ}

theorem entry_eq (hne : vals ≠ []) : entry vals = some (summaryOf vals) := by
  have hsorted : sorted vals ≠ [] := sorted_ne_nil hne
  have hleast : index (sorted vals) 0 = some (clamped (sorted vals) 0) :=
    index_natCast hsorted (i := 0) (Nat.zero_le _)
  have hunfold : entry vals = (do
      let p50 ← percentile (sorted vals) 50
      let p95 ← percentile (sorted vals) 95
      let least ← index (sorted vals) 0
      let greatest ← index (sorted vals) (-1)
      return ⟨(sorted vals).length, roundTo 3 p50, roundTo 3 p95, roundTo 3 least,
        roundTo 3 greatest⟩) := rfl
  rw [hunfold, percentile_eq hsorted (by norm_num) (by norm_num),
    percentile_eq hsorted (by norm_num) (by norm_num), hleast, index_neg_one hsorted]
  simp only [length_sorted, Option.bind_eq_bind, Option.bind_some, Option.pure_def]
  rfl

example : entry [30, 100, 10, 50, 20, 70, 40, 90, 60, 80] =
    some ⟨10, 55, 191 / 2, 10, 100⟩ := by decide +kernel

theorem summaryOf_perm {vals' : List ℚ} (h : vals.Perm vals') : summaryOf vals = summaryOf vals' := by
  simp only [summaryOf, quantile, sorted_perm h, h.length_eq]

theorem summaryOf_ordered (vals : List ℚ) : (summaryOf vals).minMs ≤ (summaryOf vals).p50Ms ∧
    (summaryOf vals).p50Ms ≤ (summaryOf vals).p95Ms ∧ (summaryOf vals).p95Ms ≤ (summaryOf vals).maxMs := by
  have hmono := clamped_mono (pairwise_sorted vals)
  have hlen : (0 : ℚ) ≤ (vals.length - 1 : ℕ) := Nat.cast_nonneg _
  refine ⟨roundTo_mono 3 ?_, roundTo_mono 3 ?_, roundTo_mono 3 ?_⟩
  · exact first_le_lerp hmono (by positivity)
  · exact lerp_mono hmono (by positivity) (by gcongr; norm_num)
  · exact lerp_le_last hmono (by positivity) (mul_le_of_le_one_left hlen (by norm_num))

theorem least_le {v : ℚ} (hv : v ∈ vals) : clamped (sorted vals) 0 ≤ v := by
  obtain ⟨i, hi, rfl⟩ := List.getElem_of_mem (mem_sorted.mpr hv)
  rw [← clamped_eq_getElem hi]
  exact clamped_mono (pairwise_sorted vals) (Nat.zero_le i)

theorem le_greatest {v : ℚ} (hv : v ∈ vals) : v ≤ clamped (sorted vals) (vals.length - 1) := by
  obtain ⟨i, hi, rfl⟩ := List.getElem_of_mem (mem_sorted.mpr hv)
  rw [← clamped_eq_getElem hi]
  rw [length_sorted] at hi
  exact clamped_mono (pairwise_sorted vals) (by omega)

end Entries

section Rows

/-- What one row contributes. -/
def readingOf (row : MetricRow) : String × ℚ := (row.metricName, (PyFloat.exactValue row.metricMs).getD 0)

/-- The groups of the readings, each with its summary. -/
def summaries (readings : List (String × ℚ)) : List (String × Summary) :=
  (Grouping.firsts (readings.map Prod.fst)).map fun name =>
    (name, summaryOf (Grouping.valuesAt name readings))

theorem byName_eq (readings : List (String × ℚ)) : byName readings =
    (Grouping.firsts (readings.map Prod.fst)).map fun name => (name, Grouping.valuesAt name readings) := by
  have hfold (vals : List ℚ) : vals.foldl (fun vals ms => vals ++ [ms]) [] = vals := by
    rw [List.foldl_append_eq_append, ← List.flatMap_def, List.flatMap_singleton', List.nil_append]
  rw [byName, Grouping.tally_eq]
  simp only [hfold]

theorem valuesAt_ne_nil {readings : List (String × ℚ)} {name : String} :
    Grouping.valuesAt name readings ≠ [] ↔ name ∈ readings.map Prod.fst := by
  simp [Grouping.valuesAt, List.filter_eq_nil_iff]

theorem gateLatencySummary_eq {rows : List MetricRow}
    (hexact : ∀ row ∈ rows, (PyFloat.exactValue row.metricMs).isSome) :
    gateLatencySummary rows = some (summaries (rows.map readingOf)) := by
  have hreadings : (rows.mapM fun r => (PyFloat.exactValue r.metricMs).map fun ms => (r.metricName, ms)) =
      some (rows.map readingOf) := by
    apply Grouping.mapM_pure_of
    intro row hrow
    obtain ⟨ms, hms⟩ := Option.isSome_iff_exists.mp (hexact row hrow)
    simp [readingOf, hms]
  rw [gateLatencySummary, hreadings, Option.bind_eq_bind, Option.bind_some, byName_eq, summaries]
  generalize rows.map readingOf = readings
  have hentries : ((Grouping.firsts (readings.map Prod.fst)).map fun name =>
      (name, Grouping.valuesAt name readings)).mapM
        (fun group => (entry group.2).map fun summary => (group.1, summary)) =
      some (((Grouping.firsts (readings.map Prod.fst)).map fun name =>
        (name, Grouping.valuesAt name readings)).map fun group => (group.1, summaryOf group.2)) := by
    apply Grouping.mapM_pure_of
    intro group hgroup
    obtain ⟨name, hname, rfl⟩ := List.mem_map.mp hgroup
    rw [entry_eq (valuesAt_ne_nil.mpr (Grouping.mem_firsts.mp hname))]
    rfl
  rw [hentries, List.map_map]
  rfl

theorem lookup_summaries (readings : List (String × ℚ)) (name : String) :
    (summaries readings).lookup name =
      if name ∈ readings.map Prod.fst then some (summaryOf (Grouping.valuesAt name readings)) else none := by
  simp only [summaries, Grouping.lookup_map, Grouping.mem_firsts]

/-- The rows of the calls. -/
def rows (uuids : ℕ ↪ String) : ℕ → List Measurement → List MetricRow
  | _, [] => []
  | k, m :: ms => m.row (uuids k) :: rows uuids (k + 1) ms

theorem rows_reading (uuids : ℕ ↪ String) (ms : List Measurement) (k : ℕ) :
    (rows uuids k ms).map readingOf = ms.map Measurement.reading := by
  induction ms generalizing k with
  | nil => rfl
  | cons m ms ih => rw [rows, List.map_cons, List.map_cons, ih]; rfl

theorem rows_exact (uuids : ℕ ↪ String) (ms : List Measurement) (k : ℕ) :
    ∀ row ∈ rows uuids k ms, (PyFloat.exactValue row.metricMs).isSome := by
  induction ms generalizing k with
  | nil => simp [rows]
  | cons m ms ih =>
    intro row hrow
    rcases List.mem_cons.mp hrow with rfl | hrow
    · rfl
    · exact ih (k + 1) row hrow

theorem call_program {m : Measurement} {uuid : String} {w : World}
    (hnew : ∀ row ∈ w.agentMetrics, row.id ≠ uuid) :
    call (m.program uuid) w = (.ok uuid, { w with agentMetrics := w.agentMetrics ++ [m.row uuid] }) := by
  have hfree : w.violates (.insertAgentMetrics (m.row uuid)) = false := by
    simpa [World.violates, Measurement.row] using hnew
  have hinsert := Serial.alone_execute hfree
  simp only [call, Measurement.program, recordInvokeLatency, Prog.run_bind, Prog.run_call]
  simp only [Measurement.row] at hinsert
  rw [hinsert]
  rfl

/-- Every call succeeds and adds its row. -/
theorem record_agentMetrics (uuids : ℕ ↪ String) (ms : List Measurement) (k : ℕ) (w : World)
    (hdrawn : ∀ row ∈ w.agentMetrics, ∃ j < k, row.id = uuids j) :
    (record uuids k ms w).agentMetrics = w.agentMetrics ++ rows uuids k ms := by
  induction ms generalizing k w with
  | nil => simp [record, rows]
  | cons m ms ih =>
    have hnew : ∀ row ∈ w.agentMetrics, row.id ≠ uuids k := by
      intro row hrow heq
      obtain ⟨j, hj, hid⟩ := hdrawn row hrow
      have := uuids.injective (hid.symm.trans heq)
      omega
    rw [record, call_program hnew, ih]
    · simp [rows]
    · intro row hrow
      rcases List.mem_append.mp hrow with hrow | hrow
      · obtain ⟨j, hj, hid⟩ := hdrawn row hrow
        exact ⟨j, by omega, hid⟩
      · rw [List.mem_singleton.mp hrow]
        exact ⟨k, by omega, rfl⟩

end Rows

section Law

/-- What a summary says of the readings, name by name. -/
structure Truthful (readings : List (String × ℚ)) (summary : List (String × Summary)) : Prop where
  names_nodup : (summary.map Prod.fst).Nodup
  mem_names : ∀ name, name ∈ summary.map Prod.fst ↔ name ∈ readings.map Prod.fst
  count : ∀ e ∈ summary, e.2.count = (Grouping.valuesAt e.1 readings).length
  count_sum : (summary.map fun e => e.2.count).sum = readings.length
  least : ∀ e ∈ summary, ∃ ms, IsLeast {v | v ∈ Grouping.valuesAt e.1 readings} ms ∧
    e.2.minMs = roundTo 3 ms
  greatest : ∀ e ∈ summary, ∃ ms, IsGreatest {v | v ∈ Grouping.valuesAt e.1 readings} ms ∧
    e.2.maxMs = roundTo 3 ms
  ordered : ∀ e ∈ summary, e.2.minMs ≤ e.2.p50Ms ∧ e.2.p50Ms ≤ e.2.p95Ms ∧ e.2.p95Ms ≤ e.2.maxMs

theorem valuesAt_perm {readings readings' : List (String × ℚ)} (h : readings.Perm readings')
    (name : String) : (Grouping.valuesAt name readings).Perm (Grouping.valuesAt name readings') :=
  (h.filter _).map _

theorem truthful_summaries {readings readings' : List (String × ℚ)} (h : readings'.Perm readings) :
    Truthful readings (summaries readings') := by
  have hnames : (summaries readings').map Prod.fst = Grouping.firsts (readings'.map Prod.fst) := by
    simp [summaries, Function.comp_def]
  have hentry : ∀ e ∈ summaries readings', ∃ vals, vals ≠ [] ∧
      vals.Perm (Grouping.valuesAt e.1 readings) ∧ e.2 = summaryOf vals := by
    intro e he
    obtain ⟨name, hname, rfl⟩ := List.mem_map.mp he
    exact ⟨_, valuesAt_ne_nil.mpr (Grouping.mem_firsts.mp hname), valuesAt_perm h name, rfl⟩
  constructor
  · rw [hnames]
    exact Grouping.nodup_firsts _
  · intro name
    rw [hnames, Grouping.mem_firsts]
    exact (h.map Prod.fst).mem_iff
  · intro e he
    obtain ⟨vals, -, hperm, heq⟩ := hentry e he
    rw [heq]
    exact hperm.length_eq
  · have hsum := Grouping.sum_valuesAt (fun _ => 1) (Grouping.nodup_firsts (readings'.map Prod.fst))
      readings' fun reading hr => Grouping.mem_firsts.mpr (List.mem_map_of_mem hr)
    rw [← h.length_eq]
    simpa [summaries, summaryOf, Function.comp_def] using hsum
  · intro e he
    obtain ⟨vals, hne, hperm, heq⟩ := hentry e he
    refine ⟨clamped (sorted vals) 0, ⟨?_, ?_⟩, by rw [heq, summaryOf]⟩
    · exact hperm.mem_iff.mp (mem_sorted.mp (clamped_mem (sorted_ne_nil hne) 0))
    · intro v hv
      exact least_le (hperm.mem_iff.mpr hv)
  · intro e he
    obtain ⟨vals, hne, hperm, heq⟩ := hentry e he
    refine ⟨clamped (sorted vals) (vals.length - 1), ⟨?_, ?_⟩, by rw [heq, summaryOf]⟩
    · exact hperm.mem_iff.mp (mem_sorted.mp (clamped_mem (sorted_ne_nil hne) _))
    · intro v hv
      exact le_greatest (hperm.mem_iff.mpr hv)
  · intro e he
    obtain ⟨vals, -, -, heq⟩ := hentry e he
    rw [heq]
    exact summaryOf_ordered vals

theorem lookup_perm {readings readings' : List (String × ℚ)} {name : String}
    (h : (Grouping.valuesAt name readings).Perm (Grouping.valuesAt name readings')) :
    (summaries readings).lookup name = (summaries readings').lookup name := by
  have hmem : name ∈ readings.map Prod.fst ↔ name ∈ readings'.map Prod.fst := by
    rw [← valuesAt_ne_nil, ← valuesAt_ne_nil, ← List.length_pos_iff, h.length_eq, List.length_pos_iff]
  rw [lookup_summaries, lookup_summaries, summaryOf_perm h]
  simp only [hmem]

/-- What the calls leave in a database that had no metric yet. -/
def recorded (uuids : ℕ ↪ String) (ms : List Measurement) : World := record uuids 0 ms World.empty

theorem recorded_agentMetrics (uuids : ℕ ↪ String) (ms : List Measurement) :
    (recorded uuids ms).agentMetrics = rows uuids 0 ms := by
  rw [recorded, record_agentMetrics uuids ms 0 World.empty (by simp [World.empty])]
  rfl

variable (collation : LinearOrder String) (visit : Visit) (uuids : ℕ ↪ String)

theorem fetchAll_perm (w : World) : (fetchAll collation visit w).Perm w.agentMetrics :=
  (List.perm_insertionSort _ _).trans (visit.perm _)

/-- The rows come in the order of their names. -/
theorem fetchAll_sorted (w : World) : ((fetchAll collation visit w).map readingOf).Pairwise fun a b =>
    collation.le a.1 b.1 := by
  have : Std.Total fun a b : MetricRow => collation.le a.metricName b.metricName :=
    ⟨fun a b => collation.le_total a.metricName b.metricName⟩
  have : IsTrans MetricRow fun a b => collation.le a.metricName b.metricName :=
    ⟨fun a b c => collation.le_trans a.metricName b.metricName c.metricName⟩
  exact List.pairwise_map.mpr (List.pairwise_insertionSort _ _)

theorem fetched_perm (ms : List Measurement) :
    ((fetchAll collation visit (recorded uuids ms)).map readingOf).Perm (ms.map Measurement.reading) := by
  have hperm := (fetchAll_perm collation visit (recorded uuids ms)).map readingOf
  rwa [recorded_agentMetrics, rows_reading] at hperm

theorem gateLatencySummary_fetched (ms : List Measurement) :
    gateLatencySummary (fetchAll collation visit (recorded uuids ms)) =
      some (summaries ((fetchAll collation visit (recorded uuids ms)).map readingOf)) := by
  apply gateLatencySummary_eq
  intro row hrow
  have hmem := (fetchAll_perm collation visit _).mem_iff.mp hrow
  rw [recorded_agentMetrics] at hmem
  exact rows_exact uuids ms 0 row hmem

/-- Rows that are ordered by name show the groups in an order of their own. -/
theorem summaries_perm {readings readings' : List (String × ℚ)} (h : readings.Perm readings')
    (hsorted : readings.Pairwise fun a b => collation.le a.1 b.1)
    (hsorted' : readings'.Pairwise fun a b => collation.le a.1 b.1) :
    summaries readings = summaries readings' := by
  have hnames {readings : List (String × ℚ)} (h : readings.Pairwise fun a b => collation.le a.1 b.1) :
      (Grouping.firsts (readings.map Prod.fst)).Pairwise collation.le :=
    (List.pairwise_map.mpr h).sublist (Grouping.firsts_sublist _)
  have hsame : (Grouping.firsts (readings.map Prod.fst)).Perm (Grouping.firsts (readings'.map Prod.fst)) := by
    rw [List.perm_ext_iff_of_nodup (Grouping.nodup_firsts _) (Grouping.nodup_firsts _)]
    intro name
    rw [Grouping.mem_firsts, Grouping.mem_firsts]
    exact (h.map Prod.fst).mem_iff
  have heq := hsame.eq_of_pairwise (fun a b _ _ => collation.le_antisymm a b) (hnames hsorted)
    (hnames hsorted')
  rw [summaries, summaries, heq]
  exact List.map_congr_left fun name _ => by rw [summaryOf_perm (valuesAt_perm h name)]

/-- The summary of two runs. No index is out of range, every entry is truthful, an
entry depends on the readings of its name only, and the order of the calls is lost. -/
theorem gate_summary (collation : LinearOrder String) (visit visit' : Visit)
    (uuids uuids' : ℕ ↪ String) (ms ms' : List Measurement) : ∃ summary summary',
    gateLatencySummary (fetchAll collation visit (recorded uuids ms)) = some summary ∧
    gateLatencySummary (fetchAll collation visit' (recorded uuids' ms')) = some summary' ∧
    (recorded uuids ms).agentMetrics.map readingOf = ms.map Measurement.reading ∧
    Truthful (ms.map Measurement.reading) summary ∧
    (∀ name, (Grouping.valuesAt name (ms.map Measurement.reading)).Perm
        (Grouping.valuesAt name (ms'.map Measurement.reading)) →
      summary.lookup name = summary'.lookup name) ∧
    (ms.Perm ms' → summary = summary') := by
  have hperm := fetched_perm collation visit uuids ms
  have hperm' := fetched_perm collation visit' uuids' ms'
  refine ⟨_, _, gateLatencySummary_fetched collation visit uuids ms,
    gateLatencySummary_fetched collation visit' uuids' ms', ?_, truthful_summaries hperm, ?_, ?_⟩
  · rw [recorded_agentMetrics, rows_reading]
  · intro name h
    have hvalues := (valuesAt_perm hperm name).trans (h.trans (valuesAt_perm hperm' name).symm)
    exact lookup_perm hvalues
  · intro h
    exact summaries_perm collation (hperm.trans ((h.map _).trans hperm'.symm))
      (fetchAll_sorted collation visit _) (fetchAll_sorted collation visit' _)

end Law

end NoblePort.Metrics
