import NoblePort.FixedWidth
import NoblePort.NewestFirst
import NoblePort.Payload

/-!
# The audit trail

Calls of `insert_audit` one after another, each under the time its clock shows,
and what `list_audit` makes of the rows they leave.
-/
namespace NoblePort.AuditTrail

open Coroutine NoblePort.Values NoblePort.Store NoblePort.Records NoblePort.System

/-- `datetime.now(timezone.utc)`, in a year of four digits. -/
structure Instant where
  year : Nat
  month : Nat
  day : Nat
  hour : Nat
  minute : Nat
  second : Nat
  microsecond : Nat
  year_four : 1000 ≤ year ∧ year ≤ 9999
  month_le : month ≤ 12
  day_le : day ≤ 31
  hour_lt : hour < 24
  minute_lt : minute < 60
  second_lt : second < 60
  microsecond_lt : microsecond < 1000000

namespace Instant

def values (now : Instant) : List Nat :=
  [now.year, now.month, now.day, now.hour, now.minute, now.second, now.microsecond]

/-- Datetimes are compared field by field. -/
instance : LE Instant := ⟨fun now now' => now.values ≤ now'.values⟩

end Instant

/-- The format `%Y-%m-%dT%H:%M:%S.%fZ`. -/
def layout : List (Nat × Char) :=
  [(4, '-'), (2, '-'), (2, 'T'), (2, ':'), (2, ':'), (2, '.'), (6, 'Z')]

def utcnowIso (now : Instant) : String := String.ofList (FixedWidth.render layout now.values)

theorem Instant.fits (now : Instant) : FixedWidth.Fits layout now.values := by
  have hyear := now.year_four
  have hmonth := now.month_le
  have hday := now.day_le
  have hhour := now.hour_lt
  have hminute := now.minute_lt
  have hsecond := now.second_lt
  have hmicrosecond := now.microsecond_lt
  simp [FixedWidth.Fits, layout, Instant.values]
  omega

/-- The texts are in the order of the clock. -/
theorem utcnowIso_le {now now' : Instant} : utcnowIso now ≤ utcnowIso now' ↔ now ≤ now' :=
  FixedWidth.render_le_render now.fits now'.fits

example : utcnowIso ⟨2026, 3, 4, 5, 6, 7, 89, by decide, by decide, by decide, by decide, by decide,
    by decide, by decide⟩ = "2026-03-04T05:06:07.000089Z" := by decide

/-- One call of `insert_audit`. -/
structure Insertion where
  db : Dialect
  eventType : String
  payload : RoundTrip.State
  threadId : Option String
  message : Option String
  auditId : Option String
  uuid : String
  now : Instant

def Insertion.record (c : Insertion) : AuditRecord :=
  ⟨pyOr c.auditId c.uuid, c.eventType, c.payload.items, c.threadId, c.message, utcnowIso c.now⟩

def Insertion.program (c : Insertion) : Async AuditRecord :=
  insertAudit c.db c.eventType c.payload.items c.threadId c.message c.auditId c.uuid (utcnowIso c.now)

/-- The calls one after another: the records returned, and what is stored. -/
def inserts : List Insertion → World → List AuditRecord × World
  | [], w => ([], w)
  | c :: cs, w =>
    match call c.program w with
    | (.ok record, w') => (record :: (inserts cs w').1, (inserts cs w').2)
    | (.error _, w') => inserts cs w'

/-- The text stored for a record that was returned. -/
def textOf (record : AuditRecord) : JsonObject := (dumps record.payload).toOption.getD []

def rowOf (record : AuditRecord) : AuditRow := Payload.rowOf record (textOf record)

/-- A row as `list_audit` gives it back. -/
def read (row : AuditRow) : AuditRecord :=
  ⟨row.id, row.eventType, loads row.payload, row.threadId, row.message, row.createdAt⟩

/-- `list_audit`, when the database visits the rows in the order `scan`. -/
def listed (scan : List AuditRow → List AuditRow) (threadId : Option String) (limit : Nat) (w : World) :
    Except Exc (List AuditRecord) :=
  ((listAudit threadId limit).run (fun op w =>
    ((interp.entry { scan := scan } w op).result, interp.settle w (interp.entry { scan := scan } w op))) w).1

def about (threadId : Option String) (record : AuditRecord) : Bool :=
  threadId.isNone || record.threadId == threadId

theorem listed_eq (scan : List AuditRow → List AuditRow) (threadId : Option String) (limit : Nat)
    (w : World) : listed scan threadId limit w = .ok ((w.auditRows scan threadId limit).map read) := rfl

theorem read_injective : Function.Injective read := by
  intro row row' h
  obtain ⟨id, type, payload, threadId, message, now⟩ := row
  obtain ⟨id', type', payload', threadId', message', now'⟩ := row'
  simp only [read, AuditRecord.mk.injEq] at h
  obtain ⟨rfl, rfl, hpayload, rfl, rfl, rfl⟩ := h
  rw [JsonStates.loads_injective payload payload' hpayload]

/-- A call by itself raises and stores nothing, or adds its row under a new id. -/
theorem call_insert (c : Insertion) (w : World) :
    (∃ e, call c.program w = (.error e, w)) ∨
      (call c.program w = (.ok c.record, { w with auditLog := w.auditLog ++ [rowOf c.record] }) ∧
        (∀ row ∈ w.auditLog, row.id ≠ c.record.id) ∧ ∃ text, dumps c.record.payload = .ok text) := by
  have hdumps : alone (.jsonDumps c.payload.items) w = (dumps c.payload.items, w) := rfl
  cases htext : dumps c.payload.items with
  | error e =>
    left
    rw [htext] at hdumps
    simp only [call, Insertion.program, insertAudit_eq, Prog.run_bind, Prog.run_tryExcept, Prog.run_call,
      hdumps]
    cases e with
    | cancelled => exact ⟨_, rfl⟩
    | exception cls s => cases cls <;> exact ⟨_, rfl⟩
  | ok text =>
    rw [htext] at hdumps
    have hrow : rowOf c.record = Payload.rowOf c.record text := by
      rw [rowOf, textOf, Insertion.record, htext]
      rfl
    cases hv : w.violates (.insertAuditLog (c.db = .postgres) (Payload.rowOf c.record text)) with
    | true =>
      have hinsert := RoundTrip.alone_refused hv
      left
      simp only [Payload.rowOf, Insertion.record] at hinsert
      simp only [call, Insertion.program, insertAudit_eq, Prog.run_bind, Prog.run_tryExcept, Prog.run_call,
        hdumps, hinsert]
      exact ⟨_, rfl⟩
    | false =>
      have hinsert := Serial.alone_execute hv
      have hnew : ∀ row ∈ w.auditLog, row.id ≠ c.record.id := by
        simpa [World.violates, Payload.rowOf] using hv
      right
      refine ⟨?_, hnew, text, htext⟩
      simp only [Payload.rowOf, Insertion.record] at hinsert
      simp only [call, Insertion.program, insertAudit_eq, Prog.run_bind, Prog.run_tryExcept, Prog.run_call,
        hdumps, hinsert, hrow]
      rfl

/-- What the calls leave: the rows of the records returned, which are some of
those asked for, each under an id of its own. -/
structure Kept (cs : List Insertion) (w w' : World) (records : List AuditRecord) : Prop where
  log : w'.auditLog = w.auditLog ++ records.map rowOf
  ids : (w'.auditLog.map (·.id)).Nodup
  asked : records.Sublist (cs.map Insertion.record)
  encoded : ∀ record ∈ records, ∃ text, dumps record.payload = .ok text

theorem inserts_kept (cs : List Insertion) (w : World) (h₀ : (w.auditLog.map (·.id)).Nodup) :
    Kept cs w (inserts cs w).2 (inserts cs w).1 := by
  induction cs generalizing w with
  | nil => exact ⟨(List.append_nil _).symm, h₀, .slnil, nofun⟩
  | cons c cs ih =>
    rcases call_insert c w with ⟨e, hcall⟩ | ⟨hcall, hnew, hencoded⟩
    · simp only [inserts, hcall]
      obtain ⟨hlog, hids, hasked, hencoded⟩ := ih w h₀
      exact ⟨hlog, hids, hasked.cons _, hencoded⟩
    · simp only [inserts, hcall]
      have hids : ((w.auditLog ++ [rowOf c.record]).map (·.id)).Nodup := by
        rw [List.map_append, List.map_singleton, List.nodup_append]
        refine ⟨h₀, List.nodup_singleton _, fun id hid id' hid' => ?_⟩
        obtain ⟨row, hrow, rfl⟩ := List.mem_map.mp hid
        rw [List.mem_singleton.mp hid']
        exact hnew row hrow
      obtain ⟨hlog, hids', hasked, hrest⟩ := ih { w with auditLog := w.auditLog ++ [rowOf c.record] } hids
      refine ⟨?_, hids', hasked.cons_cons _, ?_⟩
      · rw [hlog, List.map_cons, List.append_assoc, List.singleton_append]
      · intro record hrecord
        rcases List.mem_cons.mp hrecord with rfl | hrecord
        · exact hencoded
        · exact hrest record hrecord

/-- The rows of the listing, in the order of their insertion. -/
def rowsAbout (threadId : Option String) (w : World) : List AuditRow :=
  w.auditLog.filter fun row => threadId.isNone || row.threadId == threadId

theorem rowsAbout_eq {cs : List Insertion} {w : World} {records : List AuditRecord}
    (h : Kept cs World.empty w records) (threadId : Option String) :
    rowsAbout threadId w = (records.filter (about threadId)).map rowOf := by
  rw [rowsAbout, h.log, List.filter_append, List.filter_map]
  rfl

theorem auditRows_eq (scan : List AuditRow → List AuditRow) (threadId : Option String) (limit : Nat)
    (w : World) : w.auditRows scan threadId limit =
      (NewestFirst.descending (·.createdAt) (scan (rowsAbout threadId w))).take limit := rfl

/-- The order of the rows is the order of the clock. -/
theorem rowsAbout_sorted {cs : List Insertion} {w : World} {records : List AuditRecord}
    (h : Kept cs World.empty w records) (hclock : cs.Pairwise fun c c' => c.now ≤ c'.now)
    (threadId : Option String) :
    (rowsAbout threadId w).Pairwise fun row row' => row.createdAt ≤ row'.createdAt := by
  have hasked : (cs.map Insertion.record).Pairwise fun r r' => r.createdAt ≤ r'.createdAt := by
    rw [List.pairwise_map]
    exact hclock.imp fun hle => utcnowIso_le.mpr hle
  rw [rowsAbout_eq h, List.pairwise_map]
  exact (hasked.sublist h.asked).filter _

theorem rowsAbout_nodup {cs : List Insertion} {w : World} {records : List AuditRecord}
    (h : Kept cs World.empty w records) (threadId : Option String) : (rowsAbout threadId w).Nodup :=
  (List.Nodup.of_map _ h.ids).filter _

/-- A plain payload comes back equal to the one inserted. -/
theorem payload_read {cs : List Insertion} {w : World} {records : List AuditRecord}
    (h : Kept cs World.empty w records) {record : AuditRecord} (hrecord : record ∈ records) :
    RoundTrip.eq (.dict record.payload) (.dict (read (rowOf record)).payload) =
      RoundTrip.plain (.dict record.payload) := by
  obtain ⟨c, _, rfl⟩ := List.mem_map.mp (h.asked.subset hrecord)
  obtain ⟨text, htext⟩ := h.encoded c.record hrecord
  have hread : (read (rowOf c.record)).payload = loads text := by
    rw [rowOf, textOf, htext]
    rfl
  rw [hread]
  refine RoundTrip.eq_decode _ (.obj text) c.payload.distinct ?_
  change (dumps c.record.payload).map Json.obj = _
  rw [htext]
  rfl

/-- After any calls of `insert_audit` whose clock never goes back, `list_audit`
gives the newest rows of a thread, or of all, newest first and their plain
payloads equal to those inserted, in whatever order the database visits the
rows, just when each listed row has another timestamp than the rows before it. -/
theorem newest_first_iff (cs : List Insertion) (hclock : cs.Pairwise fun c c' => c.now ≤ c'.now)
    (threadId : Option String) (limit : Nat) :
    ((∀ scan : List AuditRow → List AuditRow, (∀ rows, (scan rows).Perm rows) →
        listed scan threadId limit (inserts cs World.empty).2 =
          .ok ((((inserts cs World.empty).1.filter (about threadId)).reverse.take limit).map fun record =>
            read (rowOf record))) ∧
      ∀ record ∈ (inserts cs World.empty).1, RoundTrip.plain (.dict record.payload) = true →
        RoundTrip.eq (.dict record.payload) (.dict (read (rowOf record)).payload) = true) ↔
      NewestFirst.Told (·.createdAt) limit (rowsAbout threadId (inserts cs World.empty).2) := by
  have hkept := inserts_kept cs World.empty List.nodup_nil
  have hexpected : ((rowsAbout threadId (inserts cs World.empty).2).reverse.take limit).map read =
      (((inserts cs World.empty).1.filter (about threadId)).reverse.take limit).map fun record =>
        read (rowOf record) := by
    rw [rowsAbout_eq hkept, ← List.map_reverse, ← List.map_take, List.map_map]
    rfl
  rw [← hexpected]
  constructor
  · rintro ⟨hlisted, _⟩
    have hstored := hlisted id fun rows => .refl rows
    rw [listed_eq, auditRows_eq] at hstored
    exact NewestFirst.told_of_take (rowsAbout_nodup hkept threadId)
      (List.map_injective_iff.mpr read_injective (Except.ok.inj hstored))
  · intro htold
    refine ⟨fun scan hscan => ?_, fun record hrecord hplain => ?_⟩
    · rw [listed_eq, auditRows_eq,
        NewestFirst.take_of_told (rowsAbout_sorted hkept hclock threadId) htold (hscan _)]
    · rw [payload_read hkept hrecord, hplain]

/-- A moment of the first minute of a year. -/
def atSecond (s : Fin 60) : Instant where
  year := 2026
  month := 1
  day := 1
  hour := 0
  minute := 0
  second := s
  microsecond := 0
  year_four := by omega
  month_le := by omega
  day_le := by omega
  hour_lt := by omega
  minute_lt := by omega
  second_lt := s.isLt
  microsecond_lt := by omega

def noteAt (id : String) (now : Instant) : Insertion :=
  ⟨.sqlite, "agent.note", ⟨[], by simp [RoundTrip.Distinct, RoundTrip.DistinctItems]⟩, some "t", none,
    some id, id, now⟩

instance (now now' : Instant) : Decidable (now ≤ now') :=
  inferInstanceAs (Decidable (now.values ≤ now'.values))

/-- Two rows of different seconds, visited in reverse. -/
theorem newest_first_two :
    listed List.reverse (some "t") 1
        (inserts [noteAt "a" (atSecond 0), noteAt "b" (atSecond 1)] World.empty).2 =
      .ok [read (rowOf (noteAt "b" (atSecond 1)).record)] :=
  ((newest_first_iff [noteAt "a" (atSecond 0), noteAt "b" (atSecond 1)] (by decide) (some "t") 1).mpr
    (NewestFirst.told_of_pairwise (by decide) 1)).1 List.reverse List.reverse_perm

/-- Two rows of one microsecond, visited as they were inserted: the older comes first. -/
theorem same_microsecond_oldest_first :
    ∃ records, listed id (some "t") 2
        (inserts [noteAt "a" (atSecond 0), noteAt "b" (atSecond 0)] World.empty).2 = .ok records ∧
      records.map (·.id) = ["a", "b"] ∧
      (((inserts [noteAt "a" (atSecond 0), noteAt "b" (atSecond 0)] World.empty).1.filter
        (about (some "t"))).reverse.take 2).map (·.id) = ["b", "a"] :=
  ⟨_, rfl, by decide, by decide⟩

end NoblePort.AuditTrail
