import NoblePort.Notices

/-!
# The daily digest

`generate_markdown` of `generate_digest.py`: the values that its tables show, from
the raw file and the processed file. A division by zero is an exception.
-/
namespace NoblePort.Digest

open NoblePort.Permits NoblePort.Notices NoblePort.Values

def formatValuation (v : ℤ) : String :=
  if 1000000 ≤ v then "$" ++ fixed 2 (v / 1000000) ++ "M"
  else if 1000 ≤ v then "$" ++ fixed 0 (v / 1000) ++ "K"
  else "$" ++ commas v

structure Stats where
  count : ℕ
  val : ℤ
  deriving DecidableEq, Repr

/-- `muni_stats` and `type_stats`: count and sum of valuations under each key. -/
def statsBy (key : Permit → String) (permits : List Permit) : List (String × Stats) :=
  Grouping.tally (fun stats val => ⟨stats.count + 1, stats.val + val⟩) ⟨0, 0⟩
    (permits.map fun p => (key p, p.valuation))

/-- `a / b` -/
def div (a b : ℚ) : Except Exc ℚ :=
  if b = 0 then .error (.exception (.other "ZeroDivisionError") "division by zero") else .ok (a / b)

structure MunicipalityRow where
  municipality : String
  stats : Stats
  average : ℚ

structure TypeRow where
  permitType : String
  stats : Stats
  percent : ℚ

structure Tables where
  totalPermits : ℕ
  totalValuation : ℤ
  critical : ℕ
  high : ℕ
  strategic : ℕ
  activeMunicipalities : ℕ
  criticalRows : List Permit
  highRows : List Permit
  municipalities : List MunicipalityRow
  types : List TypeRow
  register : List (ℕ × Permit)

/-- A loop that stops once `count` has reached the limit and adds a row for each permit to keep. -/
def rowsUntil (limit : ℕ) (keep : Permit → Bool) : ℕ → List Permit → List Permit × ℕ
  | count, [] => ([], count)
  | count, p :: permits =>
    if limit ≤ count then ([], count)
    else if keep p then (p :: (rowsUntil limit keep (count + 1) permits).1, (rowsUntil limit keep (count + 1) permits).2)
    else rowsUntil limit keep count permits

def highTypes : List String :=
  ["New Construction - Residential", "New Construction - Commercial", "Addition / Alteration - Commercial"]

def municipalityRows (raw : Raw) : Except Exc (List MunicipalityRow) :=
  (sortDescending (fun row => row.2.val) (statsBy Permit.municipality raw.permits)).mapM fun row =>
    (div row.2.val row.2.count).map fun avg => ⟨row.1, row.2, avg⟩

def typeRows (raw : Raw) : Except Exc (List TypeRow) :=
  (sortDescending (fun row => row.2.val) (statsBy Permit.permitType raw.permits)).mapM fun row =>
    (div row.2.val raw.totalValuation).map fun share => ⟨row.1, row.2, share * 100⟩

def generateMarkdown (processed : ProcessedFile) (raw : Raw) : Except Exc Tables := do
  let (criticalRows, count) := rowsUntil 30 (fun _ => true) 0 processed.criticalPermits
  let (highRows, _) := rowsUntil 40 (fun p => highTypes.contains p.permitType) count processed.highPermits
  let municipalities ← municipalityRows raw
  let types ← typeRows raw
  return {
    totalPermits := raw.totalPermits
    totalValuation := raw.totalValuation
    critical := processed.critical
    high := processed.high
    strategic := processed.strategic
    activeMunicipalities := raw.activeMunicipalities
    criticalRows := criticalRows
    highRows := highRows
    municipalities := municipalities
    types := types
    register := (raw.permits.zipIdx 1).map fun (p, i) => (i, p) }

theorem rowsUntil_eq (limit : ℕ) (keep : Permit → Bool) (count : ℕ) (permits : List Permit) :
    (rowsUntil limit keep count permits).1 = (permits.filter keep).take (limit - count) := by
  induction permits generalizing count with
  | nil => simp [rowsUntil]
  | cons p permits ih =>
    rw [rowsUntil]
    split
    · rename_i hlimit
      rw [Nat.sub_eq_zero_of_le hlimit, List.take_zero]
    · rename_i hlimit
      split
      · rename_i hkeep
        have hone : limit - count = limit - (count + 1) + 1 := by omega
        rw [List.filter_cons_of_pos hkeep, hone, List.take_succ_cons, ih]
      · rename_i hkeep
        rw [List.filter_cons_of_neg hkeep, ih]

/-- What the digest shows, if no division fails. -/
theorem generateMarkdown_ok {processed : ProcessedFile} {raw : Raw} {tables : Tables}
    (h : generateMarkdown processed raw = .ok tables) :
    municipalityRows raw = .ok tables.municipalities ∧ typeRows raw = .ok tables.types ∧
      tables.criticalRows = processed.criticalPermits.take 30 ∧
      tables.register = (raw.permits.zipIdx 1).map fun (p, i) => (i, p) := by
  unfold generateMarkdown at h
  cases hmunicipalities : municipalityRows raw with
  | error e =>
    rw [hmunicipalities] at h
    cases h
  | ok municipalities =>
    cases htypes : typeRows raw with
    | error e =>
      rw [hmunicipalities, htypes] at h
      cases h
    | ok types =>
      rw [hmunicipalities, htypes] at h
      cases h
      refine ⟨rfl, rfl, ?_, rfl⟩
      change (rowsUntil 30 (fun _ => true) 0 processed.criticalPermits).1 = _
      rw [rowsUntil_eq, List.filter_true]

end NoblePort.Digest
