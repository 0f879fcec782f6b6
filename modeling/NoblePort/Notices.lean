import Mathlib.Data.Rat.Floor
import NoblePort.Coroutine
import NoblePort.Exact
import NoblePort.Permits
import NoblePort.Strides
import NoblePort.Values

/-!
# Notifications

The sending half of `process_and_notify.py`. A message is made of the values its
text shows, and the text is what Slack is handed; it answers each call with
success or failure.
-/
namespace NoblePort.Notices

open Coroutine Exact NoblePort.Permits NoblePort.Values

def today : String := "2026-03-22"

def ownerSlackId : String := "U08BDP2HPGR"

/-- `format(x, ".nf")` of an `x` that is not negative. -/
def fixed (n : ℕ) (x : ℚ) : String :=
  let digits := ((halfEven (x * 10 ^ n)).toNat.repr.toList).leftpad (n + 1) '0'
  let whole := digits.take (digits.length - n)
  String.ofList (if n = 0 then whole else whole ++ '.' :: digits.drop (digits.length - n))

/-- `format(v, ",")` -/
def commas (v : ℤ) : String :=
  let rec group : List Char → List Char
    | a :: b :: c :: d :: cs => a :: b :: c :: ',' :: group (d :: cs)
    | cs => cs
  (if v < 0 then "-" else "") ++ String.ofList (group v.natAbs.repr.toList.reverse).reverse

def formatValuation (v : ℤ) : String :=
  if 1000000 ≤ v then "$" ++ fixed 2 (v / 1000000) ++ "M"
  else if 1000 ≤ v then "$" ++ fixed 0 (v / 1000) ++ "K"
  else "$" ++ commas v

/-- One batch of critical alerts, with what its header and its footer say. -/
structure Alerts where
  batchNum : ℕ
  totalBatches : ℕ
  batch : List Permit
  first : ℕ
  last : ℕ
  total : ℕ
  deriving DecidableEq

inductive Message where
  | criticalAlerts (alerts : Alerts)
  | strategicSummary (count : ℕ) (groups : List (String × List Permit))
  | dailySummary (time : String) (totalPermits : ℕ) (totalValuation : ℤ)
      (activeMunicipalities critical high strategic : ℕ) (top : List Permit)
  | municipalityBreakdown (active : ℕ) (rows : List (String × ℕ × ℤ))
  deriving DecidableEq

def rule : String := "━━━━━━━━━━━━━━━━━━━━━━━━━━━━━━━━━━━━━━"

def ljust (n : ℕ) (s : String) : String := String.ofList (s.toList.rightpad n ' ')

def rjust (n : ℕ) (s : String) : String := String.ofList (s.toList.leftpad n ' ')

def alertLine (p : Permit) : String :=
  s!"\n*`{p.permitId}`* | {p.municipality} | {p.permitType}\n" ++
  s!"  💰 *{formatValuation p.valuation}* | 📍 {p.address}\n" ++
  s!"  👷 Contractor: {p.contractor} | Applicant: {p.applicant}\n" ++
  s!"  📅 Issued: {p.issuedDate} | 🔗 {p.portalUrl}"

def Message.text : Message → String
  | .criticalAlerts a =>
    "\n".intercalate <|
      [s!"🔴 *CRITICAL PERMIT ALERTS* — Batch {a.batchNum}/{a.totalBatches} | Essex County, MA | {today}",
        rule] ++ a.batch.map alertLine ++
      ["\n" ++ rule, s!"_Showing {a.first}–{a.last} of {a.total} critical permits (≥$1M)_"]
  | .strategicSummary count groups =>
    "\n".intercalate <|
      [s!"🏗️ *STRATEGIC PERMIT SUMMARY* — Essex County, MA | {today}", rule,
        s!"*{count} strategic permits* identified (New Construction, Commercial, Demolition, Foundation, Renovation)",
        ""] ++
      groups.flatMap (fun group =>
        let total := (group.2.map Permit.valuation).sum
        [s!"*{group.1}* — {group.2.length} permit(s) | Total: {formatValuation total}"] ++
        ((sortDescending Permit.valuation group.2).take 3).map (fun p =>
          s!"  • `{p.permitId}` | {p.municipality} | {formatValuation p.valuation} | {p.contractor}") ++
        [""]) ++
      ["_Full digest available in the daily permit report._"]
  | .dailySummary time totalPermits totalValuation active critical high strategic top =>
    s!"📋 *ESSEX COUNTY PERMIT MONITOR — Daily Summary*\n📅 *Date:* {today} | ⏰ *Generated:* {time}\n" ++
    s!"{rule}\n*Total New Permits:* {totalPermits}\n" ++
    s!"*Total Valuation:* {formatValuation totalValuation}\n*Active Municipalities:* {active} of 34\n" ++
    s!"{rule}\n🔴 *Critical (≥$1M):* {critical} permits\n🟠 *High ($500K–$1M):* {high} permits\n" ++
    s!"🏗️ *Strategic Types:* {strategic} permits\n{rule}\n*Top 5 by Valuation:*\n" ++
    String.join ((top.zipIdx 1).map fun (p, i) =>
      s!"  {i}. `{p.permitId}` | {p.municipality} | {p.permitType} | {formatValuation p.valuation}\n") ++
    s!"{rule}\n_Full daily digest report generated. {critical} individual critical alerts sent._\n" ++
    "_Powered by NoblePort PermitStream.ai | Stephanie.ai_"
  | .municipalityBreakdown active rows =>
    "```\n" ++ "\n".intercalate (
      [s!"🗺️ *MUNICIPALITY BREAKDOWN* — Essex County, MA | {today}", rule,
        s!"*{active} active municipalities* out of 34 total", "",
        ljust 28 "Municipality" ++ " " ++ rjust 7 "Permits" ++ " " ++ rjust 12 "Total Val",
        String.ofList (List.replicate 28 '─' ++ ' ' :: List.replicate 7 '─' ++ ' ' :: List.replicate 12 '─')] ++
      rows.map (fun (muni, count, total) =>
        s!"{ljust 28 muni} {rjust 7 count.repr} {rjust 12 (formatValuation total)}") ++
      (if 15 < active then [s!"... and {active - 15} more municipalities"] else []) ++
      ["", "_Municipalities with no activity today: Georgetown, Lynn, Marblehead, Salem_"]) ++ "\n```"

/-- The lines of the console that report an outcome. -/
inductive Line where
  | bucket (label : String) (n : ℕ)
  | status (name : String) (ok : Bool)
  | batchSent (batchNum totalBatches n : ℕ) (ids : List String)
  | batchFailed (batchNum totalBatches : ℕ) (resp : String)
  | criticalAlerts (sent failed : ℕ)
  | totalSent (n : ℕ)

/-- The figure of the line that reports the total. -/
def Line.total? : Line → Option ℕ
  | .totalSent n => some n
  | _ => none

/-- What `main` writes to the processed file. -/
structure ProcessedFile where
  total : ℕ
  totalValuation : ℤ
  critical : ℕ
  high : ℕ
  medium : ℕ
  low : ℕ
  strategic : ℕ
  criticalPermits : List Permit
  highPermits : List Permit
  strategicPermits : List Permit

/-- What `subprocess.run` gives back. -/
structure CompletedProcess where
  returncode : ℤ
  stdout : String
  stderr : String

inductive Op where
  | now
  | slackCli (channel text : String)
  | print (line : Line)
  | sleep (seconds : ℕ)
  | dump (file : ProcessedFile)

@[reducible] def Op.Resp : Op → Type
  | .now => String
  | .slackCli _ _ => CompletedProcess
  | .print _ => Unit
  | .sleep _ => Unit
  | .dump _ => Unit

abbrev Script := Prog Op Op.Resp Exc

abbrev print (line : Line) : Script Unit := .call (Op.print line)

/-- Success and the output that goes with it. -/
def CompletedProcess.reply (result : CompletedProcess) : Bool × String :=
  if result.returncode = 0 then (true, result.stdout) else (false, result.stderr)

def sendSlackMessage (text : String) : Script (Bool × String) := do
  let result ← .call (Op.slackCli ownerSlackId text)
  return CompletedProcess.reply result

def batchSize : ℕ := 5

/-- The message of the batch that starts at `batchStart`. -/
def alertsFrom (critical : List Permit) (batchStart : ℕ) : Alerts :=
  let batch := Strides.slice critical batchStart (batchStart + batchSize)
  { batchNum := batchStart / batchSize + 1
    totalBatches := (min critical.length 25 + batchSize - 1) / batchSize
    batch := batch
    first := batchStart + 1
    last := batchStart + batch.length
    total := critical.length }

/-- One round of the loop over the batches, on the counters `sent` and `failed`. -/
def sendBatch (critical : List Permit) (batchStart sent failed : ℕ) : Script (ℕ × ℕ) := do
  let a := alertsFrom critical batchStart
  let (ok, resp) ← sendSlackMessage (Message.criticalAlerts a).text
  let counts : ℕ × ℕ ←
    if ok then do
      print (.batchSent a.batchNum a.totalBatches a.batch.length (a.batch.map Permit.permitId))
      pure (sent + 1, failed)
    else do
      print (.batchFailed a.batchNum a.totalBatches (String.ofList (resp.toList.take 80)))
      pure (sent, failed + 1)
  if batchStart + batchSize < min critical.length 25 then .call (Op.sleep 2) else pure ()
  return counts

def sendBatches (critical : List Permit) : List ℕ → ℕ → ℕ → Script (ℕ × ℕ)
  | [], sent, failed => return (sent, failed)
  | batchStart :: rest, sent, failed => do
    let (sent, failed) ← sendBatch critical batchStart sent failed
    sendBatches critical rest sent failed

def sendCriticalPermitNotifications (processed : Processed) : Script (ℕ × ℕ) :=
  sendBatches processed.critical (Strides.range (min processed.critical.length 25) batchSize) 0 0

/-- The message about the strategic permits, grouped by type. -/
def strategicMessage (strategic : List Permit) : Message :=
  let byType := Grouping.tally (fun permits p => permits ++ [p]) []
    (strategic.map fun p => (p.permitType, p))
  .strategicSummary strategic.length
    (sortDescending (fun group => (group.2.map Permit.valuation).sum) byType)

def sendStrategicSummaryNotification (processed : Processed) : Script (Bool × String) :=
  if processed.strategic = [] then return (true, "No strategic permits")
  else sendSlackMessage (strategicMessage processed.strategic).text

def dailyMessage (processed : Processed) (data : Raw) (time : String) : Message :=
  .dailySummary time data.totalPermits data.totalValuation data.activeMunicipalities
    processed.critical.length processed.high.length processed.strategic.length (processed.all.take 5)

def sendDailySummaryNotification (processed : Processed) (data : Raw) : Script (Bool × String) := do
  let time ← .call Op.now
  sendSlackMessage (dailyMessage processed data time).text

/-- `muni_totals` -/
def muniTotals (permits : List Permit) : List (String × ℤ) :=
  Grouping.tally (fun total val => total + val) 0 (permits.map fun p => (p.municipality, p.valuation))

/-- `muni_counts` -/
def muniCounts (permits : List Permit) : List (String × ℕ) :=
  Grouping.tally (fun n _ => n + 1) 0 (permits.map fun p => (p.municipality, p.valuation))

/-- `d[k]` -/
def getItem {α : Type} (d : List (String × α)) (k : String) : Except Exc α :=
  match d.lookup k with
  | some a => .ok a
  | none => .error (.exception (.other "KeyError") k)

def sendMunicipalityBreakdownNotification (processed : Processed) : Script (Bool × String) := do
  let sortedMunis := sortDescending Prod.snd (muniTotals processed.all)
  let rows ← .ofExcept ((sortedMunis.take 15).mapM fun (muni, total) =>
    (getItem (muniCounts processed.all) muni).map fun count => (muni, count, total))
  sendSlackMessage (Message.municipalityBreakdown sortedMunis.length rows).text

def processedFile (data : Raw) (processed : Processed) : ProcessedFile :=
  { total := data.totalPermits
    totalValuation := data.totalValuation
    critical := processed.critical.length
    high := processed.high.length
    medium := processed.medium.length
    low := processed.low.length
    strategic := processed.strategic.length
    criticalPermits := processed.critical
    highPermits := processed.high
    strategicPermits := processed.strategic }

def main (data : Raw) : Script Processed := do
  let processed := processPermits data
  print (.bucket "Critical" processed.critical.length)
  print (.bucket "High" processed.high.length)
  print (.bucket "Medium" processed.medium.length)
  print (.bucket "Low" processed.low.length)
  print (.bucket "Strategic types" processed.strategic.length)
  .call (Op.dump (processedFile data processed))
  let (ok, _) ← sendDailySummaryNotification processed data
  print (.status "Daily summary" ok)
  let (ok, _) ← sendMunicipalityBreakdownNotification processed
  print (.status "Municipality breakdown" ok)
  let (ok, _) ← sendStrategicSummaryNotification processed
  print (.status "Strategic summary" ok)
  let (sent, failed) ← sendCriticalPermitNotifications processed
  print (.criticalAlerts sent failed)
  print (.totalSent (sent + 3))
  return processed

/-- The texts that a run has sent, each with its success, and what it has printed. -/
structure Log where
  messages : List (String × Bool)
  lines : List Line

/-- The `k`-th message of a run comes to `slack k`; the clock shows `time`. -/
def answer (slack : ℕ → CompletedProcess) (time : String) : (op : Op) → Log → Except Exc op.Resp × Log
  | .now, log => (.ok time, log)
  | .slackCli _ text, log =>
    (.ok (slack log.messages.length),
      { log with messages := log.messages ++ [(text, (slack log.messages.length).reply.1)] })
  | .print line, log => (.ok (), { log with lines := log.lines ++ [line] })
  | .sleep _, log => (.ok (), log)
  | .dump _, log => (.ok (), log)

/-- A run by itself, from the beginning. -/
def runScript {α : Type} (slack : ℕ → CompletedProcess) (time : String) (p : Script α) : Except Exc α × Log :=
  p.run (answer slack time) ⟨[], []⟩

theorem run_sendSlackMessage (slack : ℕ → CompletedProcess) (time text : String) (log : Log) :
    (sendSlackMessage text).run (answer slack time) log =
      (.ok (slack log.messages.length).reply,
        { log with messages := log.messages ++ [(text, (slack log.messages.length).reply.1)] }) := rfl

section Breakdown

/-- The valuations of one municipality, in order. -/
def valuationsIn (permits : List Permit) (muni : String) : List ℤ :=
  Grouping.valuesAt muni (permits.map fun p => (p.municipality, p.valuation))

/-- The municipalities in the order in which they first occur. -/
def municipalitiesOf (permits : List Permit) : List String := Grouping.firsts (permits.map Permit.municipality)

theorem muniTotals_eq (permits : List Permit) : muniTotals permits =
    (municipalitiesOf permits).map fun muni => (muni, (valuationsIn permits muni).sum) := by
  rw [muniTotals, Grouping.tally_eq, List.map_map]
  simp only [List.sum_eq_foldl]
  rfl

theorem muniCounts_eq (permits : List Permit) : muniCounts permits =
    (municipalitiesOf permits).map fun muni => (muni, (valuationsIn permits muni).length) := by
  have hcount (vals : List ℤ) (n : ℕ) : vals.foldl (fun n _ => n + 1) n = n + vals.length := by
    induction vals generalizing n with
    | nil => rfl
    | cons v vals ih => rw [List.foldl_cons, ih, List.length_cons]; omega
  rw [muniCounts, Grouping.tally_eq, List.map_map]
  simp only [hcount, Nat.zero_add]
  rfl

theorem getItem_muniCounts {permits : List Permit} {muni : String} (h : muni ∈ municipalitiesOf permits) :
    getItem (muniCounts permits) muni = .ok (valuationsIn permits muni).length := by
  rw [getItem, muniCounts_eq, Grouping.lookup_map, if_pos h]

/-- The rows of the breakdown: a municipality with its count and total. -/
def breakdownRows (permits : List Permit) : List (String × ℕ × ℤ) :=
  ((sortDescending Prod.snd (muniTotals permits)).take 15).map fun (muni, total) =>
    (muni, (valuationsIn permits muni).length, total)

/-- Every municipality of the totals is found among the counts. -/
theorem breakdown_rows (permits : List Permit) :
    (((sortDescending Prod.snd (muniTotals permits)).take 15).mapM fun (muni, total) =>
      (getItem (muniCounts permits) muni).map fun count => (muni, count, total)) =
    .ok (breakdownRows permits) := by
  apply Grouping.mapM_pure_of
  rintro ⟨muni, total⟩ hrow
  have hmem := (sortDescending_perm Prod.snd _).mem_iff.mp (List.mem_of_mem_take hrow)
  rw [muniTotals_eq] at hmem
  obtain ⟨muni', hmuni, heq⟩ := List.mem_map.mp hmem
  cases heq
  change (getItem (muniCounts permits) muni).map _ = _
  rw [getItem_muniCounts hmuni]
  rfl

theorem run_breakdown (slack : ℕ → CompletedProcess) (time : String) (processed : Processed) (log : Log) :
    (sendMunicipalityBreakdownNotification processed).run (answer slack time) log =
      (.ok (slack log.messages.length).reply,
        { log with messages := log.messages ++
          [((Message.municipalityBreakdown (muniTotals processed.all).length
            (breakdownRows processed.all)).text, (slack log.messages.length).reply.1)] }) := by
  unfold sendMunicipalityBreakdownNotification
  dsimp only
  rw [breakdown_rows, ← (sortDescending_perm Prod.snd (muniTotals processed.all)).length_eq]
  rfl

end Breakdown

section Batches

variable (slack : ℕ → CompletedProcess) (time : String) (critical : List Permit)

/-- The messages of some batches, the first of them being the `k`-th message of the run. -/
def deliveries : ℕ → List ℕ → List (String × Bool)
  | _, [] => []
  | k, batchStart :: rest =>
    ((Message.criticalAlerts (alertsFrom critical batchStart)).text, (slack k).reply.1) ::
      deliveries (k + 1) rest

/-- How many of the messages succeeded. -/
def succeeded (messages : List (String × Bool)) : ℕ := messages.countP Prod.snd

theorem succeeded_add_failed (messages : List (String × Bool)) :
    succeeded messages + messages.countP (fun d => !d.2) = messages.length := by
  induction messages with
  | nil => rfl
  | cons d messages ih =>
    obtain ⟨text, ok⟩ := d
    cases ok <;> simp [succeeded] at * <;> omega

/-- One batch is one message, counted by its outcome. -/
theorem run_sendBatch (batchStart sent failed : ℕ) (log : Log) : ∃ line, Line.total? line = none ∧
    (sendBatch critical batchStart sent failed).run (answer slack time) log =
      (.ok (if (slack log.messages.length).reply.1 then (sent + 1, failed) else (sent, failed + 1)),
        ⟨log.messages ++ [((Message.criticalAlerts (alertsFrom critical batchStart)).text,
          (slack log.messages.length).reply.1)], log.lines ++ [line]⟩) := by
  have hsend := run_sendSlackMessage slack time
    (Message.criticalAlerts (alertsFrom critical batchStart)).text log
  have hpause (counts : ℕ × ℕ) (log : Log) : Prog.run (answer slack time)
      (if batchStart + batchSize < min critical.length 25 then do
        .call (Op.sleep 2)
        return counts
      else return counts) log = (.ok counts, log) := by
    split <;> rfl
  unfold sendBatch
  simp only [Prog.run_bind, hsend]
  cases hok : (slack log.messages.length).reply.1 with
  | true => exact ⟨_, rfl, hpause _ _⟩
  | false => exact ⟨_, rfl, hpause _ _⟩

/-- The loop sends one message for each start, whatever the others come to. -/
theorem run_sendBatches (starts : List ℕ) (sent failed : ℕ) (log : Log) :
    ∃ lines, lines.filterMap Line.total? = [] ∧
    (sendBatches critical starts sent failed).run (answer slack time) log =
      (.ok (sent + succeeded (deliveries slack critical log.messages.length starts),
          failed + (deliveries slack critical log.messages.length starts).countP fun d => !d.2),
        ⟨log.messages ++ deliveries slack critical log.messages.length starts, log.lines ++ lines⟩) := by
  induction starts generalizing sent failed log with
  | nil => exact ⟨[], rfl, by simp [sendBatches, deliveries, succeeded]⟩
  | cons batchStart rest ih =>
    obtain ⟨line, hline, hone⟩ := run_sendBatch slack time critical batchStart sent failed log
    rw [sendBatches, Prog.run_bind, hone]
    cases hok : (slack log.messages.length).reply.1 with
    | true =>
      obtain ⟨lines, hlines, hrest⟩ := ih (sent + 1) failed
        ⟨log.messages ++ [((Message.criticalAlerts (alertsFrom critical batchStart)).text, true)],
          log.lines ++ [line]⟩
      refine ⟨line :: lines, by rw [List.filterMap_cons_none hline, hlines], hrest.trans ?_⟩
      simp [deliveries, succeeded, hok]
      omega
    | false =>
      obtain ⟨lines, hlines, hrest⟩ := ih sent (failed + 1)
        ⟨log.messages ++ [((Message.criticalAlerts (alertsFrom critical batchStart)).text, false)],
          log.lines ++ [line]⟩
      refine ⟨line :: lines, by rw [List.filterMap_cons_none hline, hlines], hrest.trans ?_⟩
      simp [deliveries, succeeded, hok]
      omega

theorem deliveries_texts (k : ℕ) (starts : List ℕ) : (deliveries slack critical k starts).map Prod.fst =
    starts.map fun batchStart => (Message.criticalAlerts (alertsFrom critical batchStart)).text := by
  induction starts generalizing k with
  | nil => rfl
  | cons batchStart rest ih => rw [deliveries, List.map_cons, List.map_cons, ih]

theorem deliveries_outcomes (k : ℕ) (starts : List ℕ) : (deliveries slack critical k starts).map Prod.snd =
    (List.range' k starts.length).map fun i => (slack i).reply.1 := by
  induction starts generalizing k with
  | nil => rfl
  | cons batchStart rest ih => rw [deliveries, List.map_cons, ih, List.length_cons, List.range'_succ]; rfl

end Batches

end NoblePort.Notices
