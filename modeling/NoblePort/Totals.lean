import Mathlib.Algebra.BigOperators.Ring.List
import Mathlib.Algebra.Order.BigOperators.Group.List
import Mathlib.Tactic.Ring
import NoblePort.Digest

/-!
# The totals of the three scripts

The fetch, the digest and the breakdown fold the same permits into counts and sums
under different keys; nothing is lost on the way.
-/
namespace NoblePort.Totals

open NoblePort.Permits NoblePort.Notices NoblePort.Digest NoblePort.Values

/-- What each municipality has, under its own name and with positive valuations. -/
structure Assignment where
  names : List String
  nodup : names.Nodup
  permits : String → List Permit
  named : ∀ name ∈ names, ∀ p ∈ permits name, p.municipality = name
  positive : ∀ name ∈ names, ∀ p ∈ permits name, 0 < p.valuation

/-- The municipalities of Essex County on a day without permits. -/
example : Assignment := ⟨municipalities, nodup_municipalities, fun _ => [], by simp, by simp⟩

def Assignment.raw (a : Assignment) : Raw := fetchAllPermits a.names a.permits

section Stats

variable (key : Permit → String) (permits : List Permit)

/-- The valuations under one key, in order. -/
def valuationsAt (k : String) : List ℤ := Grouping.valuesAt k (permits.map fun p => (key p, p.valuation))

theorem statsBy_eq : statsBy key permits = (Grouping.firsts (permits.map key)).map fun k =>
    (k, ⟨(valuationsAt key permits k).length, (valuationsAt key permits k).sum⟩) := by
  have hfold (vals : List ℤ) (stats : Stats) :
      vals.foldl (fun stats val => (⟨stats.count + 1, stats.val + val⟩ : Stats)) stats =
        ⟨stats.count + vals.length, stats.val + vals.sum⟩ := by
    induction vals generalizing stats with
    | nil => simp
    | cons v vals ih =>
      rw [List.foldl_cons, ih, List.length_cons, List.sum_cons, Stats.mk.injEq]
      dsimp only
      exact ⟨by omega, by omega⟩
  rw [statsBy, Grouping.tally_eq, List.map_map]
  simp only [hfold, Nat.zero_add, Int.zero_add]
  rfl

/-- Sums and counts under the keys add up to those of the list. -/
theorem statsBy_sums : ((statsBy key permits).map fun row => row.2.val).sum = (permits.map Permit.valuation).sum ∧
    ((statsBy key permits).map fun row => row.2.count).sum = permits.length := by
  have hcover : ∀ item ∈ permits.map (fun p => (key p, p.valuation)),
      item.1 ∈ Grouping.firsts (permits.map key) := by
    intro item hitem
    obtain ⟨p, hp, rfl⟩ := List.mem_map.mp hitem
    exact Grouping.mem_firsts.mpr (List.mem_map_of_mem hp)
  have hnodup := Grouping.nodup_firsts (permits.map key)
  constructor
  · have hsum := Grouping.sum_valuesAt (fun val : ℤ => val) hnodup _ hcover
    rw [statsBy_eq, List.map_map]
    simpa [valuationsAt, Function.comp_def] using hsum
  · have hsum := Grouping.sum_valuesAt (fun _ : ℤ => 1) hnodup _ hcover
    rw [statsBy_eq, List.map_map]
    simpa [valuationsAt, Function.comp_def] using hsum

/-- The sorted rows have the same sums and counts. -/
theorem sorted_sums :
    ((sortDescending (fun row => row.2.val) (statsBy key permits)).map fun row => row.2.val).sum =
        (permits.map Permit.valuation).sum ∧
      ((sortDescending (fun row => row.2.val) (statsBy key permits)).map fun row => row.2.count).sum =
        permits.length := by
  obtain ⟨hval, hcount⟩ := statsBy_sums key permits
  have hsort := sortDescending_perm (fun row : String × Stats => row.2.val) (statsBy key permits)
  constructor
  · exact ((hsort.map fun row => row.2.val).sum_eq).trans hval
  · exact ((hsort.map fun row => row.2.count).sum_eq).trans hcount

/-- No group is empty. -/
theorem statsBy_count_pos : ∀ row ∈ statsBy key permits, 0 < row.2.count := by
  intro row hrow
  rw [statsBy_eq] at hrow
  obtain ⟨k, hk, rfl⟩ := List.mem_map.mp hrow
  obtain ⟨p, hp, rfl⟩ := List.mem_map.mp (Grouping.mem_firsts.mp hk)
  have hmem : p.valuation ∈ valuationsAt key permits (key p) := by
    refine List.mem_map.mpr ⟨(key p, p.valuation), ?_, rfl⟩
    exact List.mem_filter.mpr ⟨List.mem_map_of_mem hp, by simp⟩
  exact List.length_pos_of_mem hmem

end Stats

section Fetch

variable (a : Assignment)

theorem raw_permits_perm : a.raw.permits.Perm (a.names.flatMap a.permits) := by
  have hloop : a.names.foldl (fun permits name => permits ++ a.permits name) [] = a.names.flatMap a.permits := by
    rw [List.foldl_append_eq_append, ← List.flatMap_def, List.nil_append]
  rw [← hloop]
  exact sortDescending_perm ..

theorem mem_raw_permits {p : Permit} :
    p ∈ a.raw.permits ↔ ∃ name ∈ a.names, p ∈ a.permits name := by
  rw [(raw_permits_perm a).mem_iff, List.mem_flatMap]

theorem raw_positive : ∀ p ∈ a.raw.permits, 0 < p.valuation := by
  intro p hp
  obtain ⟨name, hname, hp⟩ := (mem_raw_permits a).mp hp
  exact a.positive name hname p hp

theorem totalValuation_pos (hne : a.raw.permits ≠ []) : 0 < a.raw.totalValuation := by
  change 0 < (a.raw.permits.map Permit.valuation).sum
  refine List.sum_pos _ ?_ (by simpa using hne)
  intro v hv
  obtain ⟨p, hp, rfl⟩ := List.mem_map.mp hv
  exact raw_positive a p hp

theorem totalValuation_ne_zero {key : Permit → String} {row : String × Stats}
    (hrow : row ∈ statsBy key a.raw.permits) : a.raw.totalValuation ≠ 0 := by
  rw [statsBy_eq] at hrow
  obtain ⟨k, hk, -⟩ := List.mem_map.mp hrow
  have hne : a.raw.permits ≠ [] := by
    intro hnil
    rw [hnil] at hk
    simpa using Grouping.mem_firsts.mp hk
  exact (totalValuation_pos a hne).ne'

/-- The summary lists every municipality with the number of its permits. -/
theorem raw_summary : a.raw.municipalitySummary = a.names.map fun name => (name, (a.permits name).length) := by
  have hkeys : (a.names.map fun name => (name, (a.permits name).length)).map Prod.fst = a.names := by
    simp [Function.comp_def]
  have hvalue : ∀ name ∈ a.names, Grouping.valuesAt name
      (a.names.map fun name => (name, (a.permits name).length)) = [(a.permits name).length] := by
    intro name hname
    have hfilter := Grouping.filter_flatMap Prod.fst
      (fun name => [(name, (a.permits name).length)]) a.nodup (by simp) name
    rw [if_pos hname] at hfilter
    have hsingle : a.names.map (fun name => (name, (a.permits name).length)) =
        a.names.flatMap fun name => [(name, (a.permits name).length)] := List.map_eq_flatMap
    rw [Grouping.valuesAt, hsingle, hfilter]
    rfl
  unfold Assignment.raw fetchAllPermits
  dsimp only
  rw [Grouping.tally_eq, hkeys, Grouping.firsts_eq_self a.nodup]
  refine List.map_congr_left fun name hname => ?_
  rw [hvalue name hname]
  rfl

/-- The permits that came from one municipality are found under its name. -/
theorem length_valuationsIn {name : String} (hname : name ∈ a.names) :
    (valuationsIn a.raw.permits name).length = (a.permits name).length := by
  have hfilter := Grouping.filter_flatMap Permit.municipality a.permits a.nodup a.named name
  rw [if_pos hname] at hfilter
  have hperm := ((raw_permits_perm a).filter fun p => p.municipality = name).length_eq
  rw [hfilter] at hperm
  rw [valuationsIn, Grouping.valuesAt, List.length_map, List.filter_map, List.length_map]
  exact hperm

theorem mem_municipalitiesOf {name : String} : name ∈ municipalitiesOf a.raw.permits ↔
    name ∈ a.names ∧ (a.permits name).length ≠ 0 := by
  rw [municipalitiesOf, Grouping.mem_firsts, List.mem_map]
  constructor
  · rintro ⟨p, hp, rfl⟩
    obtain ⟨name, hname, hp⟩ := (mem_raw_permits a).mp hp
    rw [a.named name hname p hp]
    exact ⟨hname, (List.length_pos_of_mem hp).ne'⟩
  · rintro ⟨hname, hne⟩
    obtain ⟨p, hp⟩ := List.exists_mem_of_length_pos (Nat.pos_of_ne_zero hne)
    exact ⟨p, (mem_raw_permits a).mpr ⟨name, hname, hp⟩, a.named name hname p hp⟩

/-- The counts of the breakdown are the entries of the summary that are not zero. -/
theorem muniCounts_perm : (muniCounts a.raw.permits).Perm
    (a.raw.municipalitySummary.filter fun entry => 0 < entry.2) := by
  have hcounts : muniCounts a.raw.permits =
      (municipalitiesOf a.raw.permits).map fun name => (name, (a.permits name).length) := by
    rw [muniCounts_eq]
    refine List.map_congr_left fun name hname => ?_
    rw [length_valuationsIn a ((mem_municipalitiesOf a).mp hname).1]
  rw [hcounts, raw_summary, List.filter_map]
  have hnodup : (municipalitiesOf a.raw.permits).Nodup := Grouping.nodup_firsts _
  refine List.Perm.map _ ((List.perm_ext_iff_of_nodup hnodup (a.nodup.filter _)).mpr ?_)
  intro name
  rw [mem_municipalitiesOf, List.mem_filter]
  simp [Nat.pos_iff_ne_zero]

end Fetch

section Tables

theorem div_ok {a b : ℚ} (hb : b ≠ 0) : div a b = .ok (a / b) := if_neg hb

/-- The municipality table never divides by zero. -/
theorem municipalityRows_eq (raw : Raw) : municipalityRows raw =
    .ok ((sortDescending (fun row => row.2.val) (statsBy Permit.municipality raw.permits)).map fun row =>
      ⟨row.1, row.2, row.2.val / row.2.count⟩) := by
  apply Grouping.mapM_pure_of
  intro row hrow
  have hpos := statsBy_count_pos _ _ row ((sortDescending_perm _ _).mem_iff.mp hrow)
  rw [div_ok (by exact_mod_cast hpos.ne')]
  rfl

/-- Nor does the type table: without permits it has no row, and otherwise the total is positive. -/
theorem typeRows_eq (a : Assignment) : typeRows a.raw =
    .ok ((sortDescending (fun row => row.2.val) (statsBy Permit.permitType a.raw.permits)).map fun row =>
      ⟨row.1, row.2, row.2.val / a.raw.totalValuation * 100⟩) := by
  apply Grouping.mapM_pure_of
  intro row hrow
  have hne := totalValuation_ne_zero a ((sortDescending_perm _ _).mem_iff.mp hrow)
  rw [div_ok (by exact_mod_cast hne)]
  rfl

/-- Shares of a total add up like what they are shares of. -/
theorem sum_percents (rows : List (String × Stats)) (total : ℚ) :
    (rows.map fun row => (row.2.val : ℚ) / total * 100).sum = (rows.map fun row => row.2.val).sum / total * 100 := by
  induction rows with
  | nil => simp
  | cons row rows ih =>
    rw [List.map_cons, List.sum_cons, ih, List.map_cons, List.sum_cons]
    push_cast
    ring

/-- The shares of the permit types. -/
theorem percents_hundred (a : Assignment) (hne : a.raw.permits ≠ []) :
    ((sortDescending (fun row => row.2.val) (statsBy Permit.permitType a.raw.permits)).map fun row =>
      (row.2.val : ℚ) / a.raw.totalValuation * 100).sum = 100 := by
  have htotal : (a.raw.totalValuation : ℚ) ≠ 0 := by exact_mod_cast (totalValuation_pos a hne).ne'
  have hsum : ((sortDescending (fun row => row.2.val) (statsBy Permit.permitType a.raw.permits)).map
      fun row => row.2.val).sum = a.raw.totalValuation := (sorted_sums ..).1
  rw [sum_percents, hsum, div_self htotal, one_mul]

theorem sortDescending_map {α β : Type} (f : α → β) (key : β → ℤ) (xs : List α) :
    sortDescending key (xs.map f) = (sortDescending (fun x => key (f x)) xs).map f :=
  (List.map_insertionSort _ _ f xs fun _ _ _ _ => Iff.rfl).symm

/-- `process_permits` does not change what the breakdown groups. -/
theorem muniTotals_classified (permits : List Permit) :
    muniTotals (permits.map Permit.classified) = muniTotals permits := by
  rw [muniTotals, List.map_map]
  rfl

theorem muniCounts_classified (permits : List Permit) :
    muniCounts (permits.map Permit.classified) = muniCounts permits := by
  rw [muniCounts, List.map_map]
  rfl

theorem muniTotals_stats (permits : List Permit) :
    muniTotals permits = (statsBy Permit.municipality permits).map fun row => (row.1, row.2.val) := by
  rw [muniTotals_eq, statsBy_eq, List.map_map]
  rfl

theorem muniCounts_stats (permits : List Permit) :
    muniCounts permits = (statsBy Permit.municipality permits).map fun row => (row.1, row.2.count) := by
  rw [muniCounts_eq, statsBy_eq, List.map_map]
  rfl

/-- The breakdown shows the first rows of the municipality table. -/
theorem breakdownRows_stats (permits : List Permit) : breakdownRows (permits.map Permit.classified) =
    ((sortDescending (fun row => row.2.val) (statsBy Permit.municipality permits)).take 15).map fun row =>
      (row.1, row.2.count, row.2.val) := by
  have hvaluations (muni : String) :
      valuationsIn (permits.map Permit.classified) muni = valuationsAt Permit.municipality permits muni := by
    rw [valuationsIn, List.map_map]
    rfl
  rw [breakdownRows, muniTotals_classified, muniTotals_stats, sortDescending_map, ← List.map_take, List.map_map]
  refine List.map_congr_left fun row hrow => ?_
  have hmem := (sortDescending_perm _ _).mem_iff.mp (List.mem_of_mem_take hrow)
  rw [statsBy_eq] at hmem
  obtain ⟨muni, -, rfl⟩ := List.mem_map.mp hmem
  simp only [Function.comp_apply, hvaluations]

/-- A municipality has a row if it has a permit. -/
theorem length_municipalities (a : Assignment) :
    (statsBy Permit.municipality a.raw.permits).length = a.raw.activeMunicipalities := by
  have hlength := (muniCounts_perm a).length_eq
  rwa [muniCounts_stats, List.length_map] at hlength

end Tables

section Breakdown

/-- Each line with its line end. -/
def lines (xs : List String) : String := String.join (xs.map (· ++ "\n"))

def heading : List String := [s!"🗺️ *MUNICIPALITY BREAKDOWN* — Essex County, MA | {today}", rule]

def columns : List String :=
  ["", ljust 28 "Municipality" ++ " " ++ rjust 7 "Permits" ++ " " ++ rjust 12 "Total Val",
    String.ofList (List.replicate 28 '─' ++ ' ' :: List.replicate 7 '─' ++ ' ' :: List.replicate 12 '─')]

/-- The line of a municipality with its count and total. -/
def breakdownLine (row : String × ℕ × ℤ) : String :=
  s!"{ljust 28 row.1} {rjust 7 row.2.1.repr} {rjust 12 (Notices.formatValuation row.2.2)}"

/-- The municipalities that have no row. -/
def moreLine (active : ℕ) : List String :=
  if 15 < active then [s!"... and {active - 15} more municipalities"] else []

/-- The text is the breakdown of so many municipalities into these rows. -/
def Breaks (active : ℕ) (rows : List (String × ℕ × ℤ)) (text : String) : Prop :=
  text = "```\n" ++ lines (heading ++ [s!"*{active} active municipalities* out of 34 total"] ++ columns ++
    rows.map breakdownLine ++ moreLine active) ++
    "\n_Municipalities with no activity today: Georgetown, Lynn, Marblehead, Salem_\n```"

theorem intercalate_lines (xs : List String) (x : String) :
    "\n".intercalate (xs ++ [x]) = lines xs ++ x := by
  induction xs with
  | nil => simp [lines]
  | cons y xs ih =>
    rw [List.cons_append, String.intercalate_cons_of_ne_nil (by simp), ih]
    simp [lines, String.append_assoc]

theorem breaks_text (active : ℕ) (rows : List (String × ℕ × ℤ)) :
    Breaks active rows (Message.municipalityBreakdown active rows).text := by
  have htext : (Message.municipalityBreakdown active rows).text = "```\n" ++ "\n".intercalate
      ((heading ++ [s!"*{active} active municipalities* out of 34 total"] ++ columns ++
        rows.map breakdownLine ++ moreLine active ++ [""]) ++
        ["_Municipalities with no activity today: Georgetown, Lynn, Marblehead, Salem_"]) ++ "\n```" := by
    unfold Message.text
    simp only [List.append_assoc]
    rfl
  have hblank (xs : List String) : lines (xs ++ [""]) = lines xs ++ "\n" := by
    rw [lines, List.map_append, String.join_append]
    rfl
  rw [Breaks, htext, intercalate_lines, hblank]
  simp only [String.append_assoc]
  rfl

end Breakdown

/-- What the digest, the breakdown and the raw file have in common. -/
structure Agreeing (raw : Raw) (processed : Processed) (tables : Tables) : Prop where
  sums : muniTotals processed.all =
    (statsBy Permit.municipality raw.permits).map fun row => (row.1, row.2.val)
  counts : muniCounts processed.all =
    (statsBy Permit.municipality raw.permits).map fun row => (row.1, row.2.count)
  rows : (tables.municipalities.map fun r => (r.municipality, r.stats)).Perm
    (statsBy Permit.municipality raw.permits)
  breakdown : breakdownRows processed.all =
    (tables.municipalities.take 15).map fun r => (r.municipality, r.stats.count, r.stats.val)
  summary : (muniCounts processed.all).Perm (raw.municipalitySummary.filter fun entry => entry.2 ≠ 0)
  municipality_sum : (tables.municipalities.map fun r => r.stats.val).sum = raw.totalValuation
  municipality_count : (tables.municipalities.map fun r => r.stats.count).sum = raw.totalPermits
  type_sum : (tables.types.map fun r => r.stats.val).sum = raw.totalValuation
  type_count : (tables.types.map fun r => r.stats.count).sum = raw.totalPermits
  active : tables.municipalities.length = raw.activeMunicipalities
  average : ∀ r ∈ tables.municipalities, r.stats.count ≠ 0 ∧ r.average = r.stats.val / r.stats.count
  percent : ∀ r ∈ tables.types, raw.totalValuation ≠ 0 ∧
    r.percent = r.stats.val / raw.totalValuation * 100
  hundred : raw.permits ≠ [] → (tables.types.map TypeRow.percent).sum = 100

/-- The rows of a digest table as the breakdown writes them. -/
def rowsOf (tables : Tables) : List (String × ℕ × ℤ) :=
  tables.municipalities.map fun r => (r.municipality, r.stats.count, r.stats.val)

/-- The breakdown hands Slack one text, with these rows and this number of municipalities. -/
theorem run_agreeing {raw : Raw} {processed : Processed} {tables : Tables}
    (h : Agreeing raw processed tables) (slack : ℕ → CompletedProcess) (time : String) (log : Log) :
    ∃ text, Breaks raw.activeMunicipalities ((rowsOf tables).take 15) text ∧
      (sendMunicipalityBreakdownNotification processed).run (answer slack time) log =
        (.ok (slack log.messages.length).reply,
          { log with messages := log.messages ++ [(text, (slack log.messages.length).reply.1)] }) := by
  have hactive : (muniTotals processed.all).length = raw.activeMunicipalities := by
    rw [h.sums, List.length_map, ← h.rows.length_eq, List.length_map, h.active]
  have hrows : breakdownRows processed.all = (rowsOf tables).take 15 := by
    rw [h.breakdown, rowsOf, List.map_take]
  refine ⟨_, ?_, run_breakdown slack time processed log⟩
  rw [hactive, hrows]
  exact breaks_text _ _

theorem agreeing (a : Assignment) : ∃ tables,
    generateMarkdown (processedFile a.raw (processPermits a.raw)) a.raw = .ok tables ∧
      Agreeing a.raw (processPermits a.raw) tables := by
  have hall : (processPermits a.raw).all = a.raw.permits.map Permit.classified := by rw [processPermits_eq]
  have hmuni := municipalityRows_eq a.raw
  have htypes := typeRows_eq a
  cases htables : generateMarkdown (processedFile a.raw (processPermits a.raw)) a.raw with
  | error e =>
    rw [generateMarkdown, hmuni, htypes] at htables
    cases htables
  | ok tables =>
    obtain ⟨hm, ht, -, -⟩ := generateMarkdown_ok htables
    rw [hmuni] at hm
    rw [htypes] at ht
    have hm := Except.ok.inj hm
    have ht := Except.ok.inj ht
    have hmsort := sortDescending_perm (fun row : String × Stats => row.2.val)
      (statsBy Permit.municipality a.raw.permits)
    have htsort := sortDescending_perm (fun row : String × Stats => row.2.val)
      (statsBy Permit.permitType a.raw.permits)
    refine ⟨tables, rfl, ?_⟩
    constructor
    · rw [hall, muniTotals_classified, muniTotals_stats]
    · rw [hall, muniCounts_classified, muniCounts_stats]
    · rw [← hm, List.map_map]
      exact (List.map_id _ ▸ hmsort)
    · rw [hall, breakdownRows_stats, ← hm, ← List.map_take, List.map_map]
      rfl
    · rw [hall, muniCounts_classified]
      simpa [Nat.pos_iff_ne_zero] using muniCounts_perm a
    · rw [← hm, List.map_map]
      exact (sorted_sums ..).1
    · rw [← hm, List.map_map]
      exact (sorted_sums ..).2
    · rw [← ht, List.map_map]
      exact (sorted_sums ..).1
    · rw [← ht, List.map_map]
      exact (sorted_sums ..).2
    · rw [← hm, List.length_map, hmsort.length_eq, length_municipalities]
    · rw [← hm]
      intro r hr
      obtain ⟨row, hrow, rfl⟩ := List.mem_map.mp hr
      exact ⟨(statsBy_count_pos _ _ row (hmsort.mem_iff.mp hrow)).ne', rfl⟩
    · rw [← ht]
      intro r hr
      obtain ⟨row, hrow, rfl⟩ := List.mem_map.mp hr
      exact ⟨totalValuation_ne_zero a (htsort.mem_iff.mp hrow), rfl⟩
    · intro hne
      rw [← ht, List.map_map]
      exact percents_hundred a hne

/-- The digest and the raw file agree with each other and with the breakdown
that Slack is handed, in every run. -/
theorem totals_agree (a : Assignment) : ∃ tables,
    generateMarkdown (processedFile a.raw (processPermits a.raw)) a.raw = .ok tables ∧
      Agreeing a.raw (processPermits a.raw) tables ∧
      ∀ slack time log, ∃ text,
        Breaks a.raw.activeMunicipalities ((rowsOf tables).take 15) text ∧
        (sendMunicipalityBreakdownNotification (processPermits a.raw)).run (answer slack time) log =
          (.ok (slack log.messages.length).reply,
            { log with messages := log.messages ++ [(text, (slack log.messages.length).reply.1)] }) := by
  obtain ⟨tables, htables, hagree⟩ := agreeing a
  exact ⟨tables, htables, hagree, run_agreeing hagree⟩

end NoblePort.Totals
