import NoblePort.AlertBatches
import NoblePort.Figures

/-!
# The figures that main reports

The daily summary announces the critical alerts before they are sent, and the
total takes the three summaries for sent. The figures are read off the texts
that Slack was handed.
-/
namespace NoblePort.Announced

open Coroutine NoblePort.Permits NoblePort.Values NoblePort.Notices NoblePort.AlertBatches

/-- What stands behind the figure in the daily summary. -/
def announcement : String :=
  " individual critical alerts sent._\n_Powered by NoblePort PermitStream.ai | Stephanie.ai_"

/-- The figure before "individual critical alerts sent". -/
def announces (text : String) : Option ℕ := Figures.before announcement.toList text.toList

/-- What stands behind the figures in the footer of a batch. -/
def criticalPermits : String := " critical permits (≥$1M)_"

/-- The last line of a batch: it shows the permits `first` to `last` of `total`. -/
def showing (text : String) : Option (ℕ × ℕ × ℕ) := do
  let tail := criticalPermits.toList
  let total ← Figures.before tail text.toList
  let tail := " of ".toList ++ (Nat.toDigits 10 total ++ tail)
  let last ← Figures.before tail text.toList
  let tail := "–".toList ++ (Nat.toDigits 10 last ++ tail)
  let first ← Figures.before tail text.toList
  return (first, last, total)

/-- The critical permits that a text shows. -/
def shown (text : String) : ℕ :=
  match showing text with
  | some (first, last, _) => last + 1 - first
  | none => 0

/-- The critical permits in alert batches that were sent successfully. -/
def delivered (messages : List (String × Bool)) : ℕ :=
  (messages.map fun d => if d.2 then shown d.1 else 0).sum

/-- Both reported figures are there, and true. -/
structure Truthful (log : Log) : Prop where
  announced : log.messages.filterMap (fun d => announces d.1) = [delivered log.messages]
  printed : log.lines.filterMap Line.total? = [succeeded log.messages]

section Reading

/-- A text with another ending announces nothing and shows nothing. -/
theorem announces_none {tail text : String} (h : tail.toList <:+ text.toList)
    (hshort : ¬ announcement.toList <:+ tail.toList) (hlong : ¬ tail.toList <:+ announcement.toList) :
    announces text = none :=
  Figures.before_none h hshort hlong

theorem shown_none {tail text : String} (h : tail.toList <:+ text.toList)
    (hshort : ¬ criticalPermits.toList <:+ tail.toList) (hlong : ¬ tail.toList <:+ criticalPermits.toList) :
    shown text = 0 := by
  rw [shown, showing, Figures.before_none h hshort hlong]
  rfl

theorem suffix_of_eq {front tail text : String} (h : text = front ++ tail) : tail.toList <:+ text.toList := by
  rw [h, String.toList_append]
  exact List.suffix_append _ _

theorem footer_closes (a : Alerts) : ∃ front, (Message.criticalAlerts a).text =
    front ++ footer a.first a.last a.total := ⟨_, prints_text a⟩

theorem showing_alerts (a : Alerts) : showing (Message.criticalAlerts a).text = some (a.first, a.last, a.total) := by
  obtain ⟨front, hfront⟩ := footer_closes a
  have htext : (Message.criticalAlerts a).text.toList = front.toList ++ ("_Showing ".toList ++
      (Nat.toDigits 10 a.first ++ ("–".toList ++ (Nat.toDigits 10 a.last ++ (" of ".toList ++
        (Nat.toDigits 10 a.total ++ criticalPermits.toList)))))) := by
    rw [hfront, String.toList_append]
    simp only [footer, criticalPermits, String.toList_append, Nat.toList_repr, toString, List.append_assoc]
  have htotal := Figures.before_digits (front.toList ++ ("_Showing ".toList ++ (Nat.toDigits 10 a.first ++
    ("–".toList ++ Nat.toDigits 10 a.last)))) " of ".toList (by decide) a.total criticalPermits.toList
  have hlast := Figures.before_digits (front.toList ++ ("_Showing ".toList ++ Nat.toDigits 10 a.first))
    "–".toList (by decide) a.last (" of ".toList ++ (Nat.toDigits 10 a.total ++ criticalPermits.toList))
  have hfirst := Figures.before_digits front.toList "_Showing ".toList (by decide) a.first
    ("–".toList ++ (Nat.toDigits 10 a.last ++ (" of ".toList ++ (Nat.toDigits 10 a.total ++
      criticalPermits.toList))))
  simp only [List.append_assoc, ← htext] at htotal hlast hfirst
  simp only [showing, htotal, hlast, hfirst, Option.bind_eq_bind, Option.bind_some, Option.pure_def]

theorem announces_alerts (a : Alerts) : announces (Message.criticalAlerts a).text = none := by
  obtain ⟨front, hfront⟩ := footer_closes a
  have hclose : (Message.criticalAlerts a).text =
      front ++ s!"_Showing {a.first}–{a.last} of {a.total}" ++ criticalPermits := by
    rw [hfront, String.append_assoc]
    rfl
  exact announces_none (suffix_of_eq hclose) (by decide +kernel) (by decide +kernel)

theorem announces_daily (processed : Processed) (data : Raw) (time : String) :
    announces (dailyMessage processed data time).text = some processed.critical.length := by
  obtain ⟨front, hfront⟩ : ∃ front : String, (dailyMessage processed data time).text = front ++
      s!"{rule}\n_Full daily digest report generated. {processed.critical.length} individual critical alerts sent._\n" ++
      "_Powered by NoblePort PermitStream.ai | Stephanie.ai_" := ⟨_, rfl⟩
  have hclose : announcement.toList = " individual critical alerts sent._\n".toList ++
      "_Powered by NoblePort PermitStream.ai | Stephanie.ai_".toList := by decide +kernel
  have hfigure := Figures.before_digits (front.toList ++ rule.toList)
    "\n_Full daily digest report generated. ".toList (by decide +kernel) processed.critical.length
    announcement.toList
  rw [announces, ← hfigure, hfront, hclose]
  simp only [String.toList_append, Nat.toList_repr, toString, List.append_assoc]

theorem shown_daily (processed : Processed) (data : Raw) (time : String) :
    shown (dailyMessage processed data time).text = 0 := by
  have hclose : (dailyMessage processed data time).text = _ ++
      "_Powered by NoblePort PermitStream.ai | Stephanie.ai_" := rfl
  exact shown_none (suffix_of_eq hclose) (by decide +kernel) (by decide +kernel)

/-- The last line of a message. -/
theorem intercalate_last (lines : List String) (line : String) (h : lines ≠ []) :
    "\n".intercalate (lines ++ [line]) = "\n".intercalate lines ++ "\n" ++ line := by
  rw [String.intercalate_append_of_ne_nil h (by simp), String.intercalate_singleton]

theorem strategic_closes (count : ℕ) (groups : List (String × List Permit)) :
    ∃ front, (Message.strategicSummary count groups).text =
      front ++ "_Full digest available in the daily permit report._" := by
  unfold Message.text
  exact ⟨_, intercalate_last _ _ (by simp)⟩

theorem announces_strategic (strategic : List Permit) : announces (strategicMessage strategic).text = none := by
  obtain ⟨front, hfront⟩ := strategic_closes strategic.length _
  exact announces_none (suffix_of_eq hfront) (by decide +kernel) (by decide +kernel)

theorem shown_strategic (strategic : List Permit) : shown (strategicMessage strategic).text = 0 := by
  obtain ⟨front, hfront⟩ := strategic_closes strategic.length _
  exact shown_none (suffix_of_eq hfront) (by decide +kernel) (by decide +kernel)

theorem breakdown_closes (active : ℕ) (rows : List (String × ℕ × ℤ)) :
    ∃ front, (Message.municipalityBreakdown active rows).text = front ++ "\n```" := ⟨_, rfl⟩

theorem announces_breakdown (active : ℕ) (rows : List (String × ℕ × ℤ)) :
    announces (Message.municipalityBreakdown active rows).text = none := by
  obtain ⟨front, hfront⟩ := breakdown_closes active rows
  exact announces_none (suffix_of_eq hfront) (by decide +kernel) (by decide +kernel)

theorem shown_breakdown (active : ℕ) (rows : List (String × ℕ × ℤ)) :
    shown (Message.municipalityBreakdown active rows).text = 0 := by
  obtain ⟨front, hfront⟩ := breakdown_closes active rows
  exact shown_none (suffix_of_eq hfront) (by decide +kernel) (by decide +kernel)

end Reading

/-- A sum that leaves something out is smaller. -/
theorem sum_if_eq_sum {α : Type} (w : α → ℕ) (p : α → Bool) {xs : List α} (hw : ∀ x ∈ xs, 1 ≤ w x) :
    (xs.map fun x => if p x then w x else 0).sum ≤ (xs.map w).sum ∧
      ((xs.map fun x => if p x then w x else 0).sum = (xs.map w).sum ↔ ∀ x ∈ xs, p x = true) := by
  induction xs with
  | nil => simp
  | cons x xs ih =>
    have hx := hw x (List.mem_cons_self ..)
    obtain ⟨hle, heq⟩ := ih fun y hy => hw y (List.mem_cons_of_mem _ hy)
    simp only [List.map_cons, List.sum_cons, List.forall_mem_cons, ← heq]
    cases p x <;> simp <;> omega

section Delivered

variable (slack : ℕ → CompletedProcess) (critical : List Permit)

/-- The messages of the batches, from the `k`-th message of the run on. -/
abbrev batches (k : ℕ) : List (String × Bool) :=
  deliveries slack critical k (Strides.range (min critical.length 25) batchSize)

theorem batches_texts (k : ℕ) : (batches slack critical k).map Prod.fst =
    (alertsOf critical).map fun a => (Message.criticalAlerts a).text := by
  rw [deliveries_texts, alertsOf, List.map_map]
  rfl

theorem mem_batches {k : ℕ} {d : String × Bool} (hd : d ∈ batches slack critical k) :
    ∃ a ∈ alertsOf critical, d.1 = (Message.criticalAlerts a).text := by
  have hfst := List.mem_map_of_mem (f := Prod.fst) hd
  rw [batches_texts] at hfst
  obtain ⟨a, ha, hmessage⟩ := List.mem_map.mp hfst
  exact ⟨a, ha, hmessage.symm⟩

/-- The footer of a batch shows as many permits as the batch has. -/
theorem shown_alerts {a : Alerts} (ha : a ∈ alertsOf critical) :
    shown (Message.criticalAlerts a).text = a.batch.length := by
  have hshowing := (alertsOf_covers critical).showing a ha
  simp only [shown, showing_alerts]
  omega

theorem shown_batches (k : ℕ) : ((batches slack critical k).map fun d => shown d.1).sum =
    min critical.length 25 := by
  have hshown : (batches slack critical k).map (fun d => shown d.1) =
      (alertsOf critical).map fun a => a.batch.length := by
    have hmap := congrArg (List.map shown) (batches_texts slack critical k)
    rw [List.map_map, List.map_map] at hmap
    exact hmap.trans (List.map_congr_left fun a ha => shown_alerts critical ha)
  rw [hshown, ← List.length_flatMap, (alertsOf_covers critical).batches, List.length_take]
  omega

theorem batches_ok (k : ℕ) : (∀ d ∈ batches slack critical k, d.2 = true) ↔
    ∀ i < batchCount critical.length, (slack (k + i)).reply.1 = true := by
  have hlength : (Strides.range (min critical.length 25) batchSize).length = batchCount critical.length := by
    rw [Strides.range_eq (by decide), List.length_map, List.length_range]
    rfl
  have hsnd : (∀ d ∈ batches slack critical k, d.2 = true) ↔
      ∀ b ∈ (batches slack critical k).map Prod.snd, b = true := by
    rw [List.forall_mem_map]
  rw [hsnd, deliveries_outcomes, hlength, List.range'_eq_map_range, List.map_map, List.forall_mem_map]
  simp only [List.mem_range, Function.comp_apply]

/-- All critical permits are delivered exactly if there are at most 25 and every batch gets through. -/
theorem delivered_batches (k : ℕ) : delivered (batches slack critical k) = critical.length ↔
    critical.length ≤ 25 ∧ ∀ i < batchCount critical.length, (slack (k + i)).reply.1 = true := by
  have hsizes : ∀ d ∈ batches slack critical k, 1 ≤ shown d.1 := by
    intro d hd
    obtain ⟨a, ha, hmessage⟩ := mem_batches slack critical hd
    rw [hmessage, shown_alerts critical ha]
    exact ((alertsOf_covers critical).sizes a ha).1
  obtain ⟨hle, heq⟩ := sum_if_eq_sum (fun d : String × Bool => shown d.1) Prod.snd hsizes
  rw [shown_batches] at hle heq
  rw [← batches_ok, ← heq, delivered]
  omega

end Delivered

section Main

variable (slack : ℕ → CompletedProcess) (time : String) (data : Raw)

/-- The three summaries as they went out; without strategic permits the third is not sent. -/
def summaries : List (String × Bool) :=
  let processed := processPermits data
  [((dailyMessage processed data time).text, (slack 0).reply.1),
    ((Message.municipalityBreakdown (muniTotals processed.all).length (breakdownRows processed.all)).text,
      (slack 1).reply.1)] ++
  if processed.strategic = [] then []
  else [((strategicMessage processed.strategic).text, (slack 2).reply.1)]

theorem answer_dump (file : ProcessedFile) (log : Log) :
    answer slack time (.dump file) log = (.ok (), log) := rfl

theorem run_daily (processed : Processed) (log : Log) :
    (sendDailySummaryNotification processed data).run (answer slack time) log =
      (.ok (slack log.messages.length).reply,
        { log with messages := log.messages ++
          [((dailyMessage processed data time).text, (slack log.messages.length).reply.1)] }) := rfl

theorem run_strategic (processed : Processed) (log : Log) :
    (sendStrategicSummaryNotification processed).run (answer slack time) log =
      (.ok (if processed.strategic = [] then (true, "No strategic permits")
          else (slack log.messages.length).reply),
        { log with messages := log.messages ++
          if processed.strategic = [] then []
          else [((strategicMessage processed.strategic).text, (slack log.messages.length).reply.1)] }) := by
  unfold sendStrategicSummaryNotification
  split
  · rw [List.append_nil]
    rfl
  · rfl

theorem run_main : ∃ log, runScript slack time (main data) = (.ok (processPermits data), log) ∧
    log.messages = summaries slack time data ++
      batches slack (processPermits data).critical (summaries slack time data).length ∧
    log.lines.filterMap Line.total? =
      [succeeded (batches slack (processPermits data).critical (summaries slack time data).length) + 3] := by
  have hcritical := run_sendBatches slack time (processPermits data).critical
    (Strides.range (min (processPermits data).critical.length 25) batchSize) 0 0
  choose lines hlines hrun using hcritical
  unfold runScript main
  simp only [Prog.run_bind, Prog.run_call, answer_dump, run_daily, run_breakdown, run_strategic,
    sendCriticalPermitNotifications, hrun]
  refine ⟨_, rfl, ?_, ?_⟩
  · rfl
  · simp [List.filterMap_cons, Line.total?, hlines, summaries]

theorem announces_batches (critical : List Permit) (k : ℕ) :
    (batches slack critical k).filterMap (fun d => announces d.1) = [] := by
  rw [List.filterMap_eq_nil_iff]
  intro d hd
  obtain ⟨a, -, hmessage⟩ := mem_batches slack critical hd
  rw [hmessage]
  exact announces_alerts a

/-- What the summaries add: the announcement, no critical permit, and at most three successes. -/
theorem summaries_announce : (summaries slack time data).filterMap (fun d => announces d.1) =
    [(processPermits data).critical.length] := by
  dsimp only [summaries]
  split <;> simp [announces_daily, announces_breakdown, announces_strategic]

theorem summaries_delivered : delivered (summaries slack time data) = 0 := by
  dsimp only [summaries]
  split <;> simp [delivered, shown_daily, shown_breakdown, shown_strategic]

theorem summaries_succeeded : succeeded (summaries slack time data) = 3 ↔
    (processPermits data).strategic ≠ [] ∧ ∀ k < 3, (slack k).reply.1 = true := by
  have hthree : (∀ k < 3, (slack k).reply.1 = true) ↔
      (slack 0).reply.1 = true ∧ (slack 1).reply.1 = true ∧ (slack 2).reply.1 = true := by
    constructor
    · intro h
      exact ⟨h 0 (by omega), h 1 (by omega), h 2 (by omega)⟩
    · rintro ⟨h0, h1, h2⟩ k hk
      rcases k with _ | _ | _ | k
      · exact h0
      · exact h1
      · exact h2
      · omega
  rw [hthree]
  by_cases h : (processPermits data).strategic = []
  · have htwo : succeeded (summaries slack time data) ≤ 2 := by
      refine List.countP_le_length.trans ?_
      simp [summaries, h]
    constructor
    · omega
    · rintro ⟨hne, -⟩
      exact (hne h).elim
  · have hlength : (summaries slack time data).length = 3 := by simp [summaries, h]
    have hall : succeeded (summaries slack time data) = (summaries slack time data).length ↔
        ∀ d ∈ summaries slack time data, d.2 = true := List.countP_eq_length
    rw [hlength] at hall
    rw [hall]
    simp [summaries, h]

/-- Both figures are true exactly if no critical permit is cut off, there is a
strategic permit, and every call to Slack succeeds. -/
theorem reports_true_iff : Truthful (runScript slack time (main data)).2 ↔
    (processPermits data).critical.length ≤ 25 ∧ (processPermits data).strategic ≠ [] ∧
      ∀ k < 3 + batchCount (processPermits data).critical.length, (slack k).reply.1 = true := by
  obtain ⟨log, hrun, hmessages, hlines⟩ := run_main slack time data
  rw [hrun]
  have hannounced : log.messages.filterMap (fun d => announces d.1) = [delivered log.messages] ↔
      delivered (batches slack (processPermits data).critical (summaries slack time data).length) =
        (processPermits data).critical.length := by
    have hsum : delivered log.messages =
        delivered (batches slack (processPermits data).critical (summaries slack time data).length) := by
      rw [hmessages, delivered, List.map_append, List.sum_append]
      exact (congrArg (· + _) (summaries_delivered slack time data)).trans (Nat.zero_add _)
    rw [hsum, hmessages, List.filterMap_append, summaries_announce, announces_batches, List.append_nil,
      List.singleton_inj]
    exact eq_comm
  have hprinted : log.lines.filterMap Line.total? = [succeeded log.messages] ↔
      succeeded (summaries slack time data) = 3 := by
    rw [hlines, List.singleton_inj, hmessages, succeeded, succeeded, List.countP_append, succeeded]
    omega
  have hboth : Truthful log ↔ log.messages.filterMap (fun d => announces d.1) = [delivered log.messages] ∧
      log.lines.filterMap Line.total? = [succeeded log.messages] :=
    ⟨fun h => ⟨h.announced, h.printed⟩, fun h => ⟨h.1, h.2⟩⟩
  rw [hboth, hannounced, hprinted, summaries_succeeded, delivered_batches]
  by_cases hstrategic : (processPermits data).strategic = []
  · simp [hstrategic]
  · have hlength : (summaries slack time data).length = 3 := by simp [summaries, hstrategic]
    rw [hlength]
    constructor
    · rintro ⟨⟨hcap, hrest⟩, -, hfirst⟩
      refine ⟨hcap, hstrategic, fun k hk => ?_⟩
      rcases Nat.lt_or_ge k 3 with h | h
      · exact hfirst k h
      · obtain ⟨i, rfl⟩ := Nat.exists_eq_add_of_le h
        exact hrest i (by omega)
    · rintro ⟨hcap, -, hall⟩
      exact ⟨⟨hcap, fun i hi => hall (3 + i) (by omega)⟩, hstrategic, fun k hk => hall k (by omega)⟩

end Main

/-- One roofing permit of two million dollars. -/
def roofing : Permit :=
  ⟨"E-BP-2026-1001", "Essex", "Roofing", "10 Main St, Essex, MA", "John Smith", "Harbor Construction Group",
    2000000, "2026-03-22 09:30", "https://www.essexma.org/building", none⟩

/-- Three messages succeed where the total says four. -/
theorem unsent_summary_counted : ¬ Truthful (runScript (fun _ => ⟨0, "ok", ""⟩) "09:30 AM ET"
    (main (fetchAllPermits ["Essex"] fun _ => [roofing]))).2 := by
  intro h
  exact absurd h.printed (by decide)

end NoblePort.Announced
