import Mathlib.Algebra.Ring.Int.Defs
import Mathlib.Data.List.Sort
import Mathlib.Tactic.SplitIfs
import NoblePort.Grouping

/-!
# Permits

What the three scripts pass on: the raw result of `fetch_all_permits` and the
buckets of `process_permits`. A municipality is known by its name.
-/
namespace NoblePort.Permits

structure Permit where
  permitId : String
  municipality : String
  permitType : String
  address : String
  applicant : String
  contractor : String
  valuation : Int
  issuedDate : String
  portalUrl : String
  /-- `priority` and `priority_icon`, once `process_permits` has set them. -/
  priority : Option (String × String)
  deriving DecidableEq, Repr

def municipalities : List String :=
  ["Amesbury", "Andover", "Beverly", "Boxford", "Danvers", "Essex", "Georgetown", "Gloucester",
    "Groveland", "Hamilton", "Haverhill", "Ipswich", "Lawrence", "Lynn", "Lynnfield",
    "Manchester-by-the-Sea", "Marblehead", "Merrimac", "Methuen", "Middleton", "Nahant", "Newbury",
    "Newburyport", "North Andover", "Peabody", "Rockport", "Rowley", "Salem", "Salisbury", "Saugus",
    "Swampscott", "Topsfield", "Wenham", "West Newbury"]

theorem nodup_municipalities : municipalities.Nodup := by decide +kernel

/-- `sort(key=lambda x: key(x), reverse=True)`: equal keys stay in order. -/
def sortDescending {α : Type} (key : α → Int) (xs : List α) : List α :=
  xs.insertionSort fun a b => key b ≤ key a

/-- The dict that `fetch_all_permits` returns. -/
structure Raw where
  totalPermits : Nat
  totalValuation : Int
  activeMunicipalities : Nat
  totalMunicipalities : Nat
  municipalitySummary : List (String × Nat)
  permits : List Permit

/-- The loop over the municipalities, `generate` being what each of them has today. -/
def fetchAllPermits (names : List String) (generate : String → List Permit) : Raw :=
  let results := Grouping.tally (fun _ n => n) 0 (names.map fun name => (name, (generate name).length))
  let allPermits := sortDescending Permit.valuation
    (names.foldl (fun permits name => permits ++ generate name) [])
  { totalPermits := allPermits.length
    totalValuation := (allPermits.map Permit.valuation).sum
    activeMunicipalities := (results.filter fun result => 0 < result.2).length
    totalMunicipalities := names.length
    municipalitySummary := results
    permits := allPermits }

def criticalThreshold : Int := 1000000

def highThreshold : Int := 500000

def mediumThreshold : Int := 100000

inductive Priority where
  | critical | high | medium | low
  deriving DecidableEq, Repr

def Priority.text : Priority → String × String
  | .critical => ("CRITICAL", "🔴")
  | .high => ("HIGH", "🟠")
  | .medium => ("MEDIUM", "🟡")
  | .low => ("LOW", "🟢")

def strategicTypes : List String :=
  ["New Construction - Residential", "New Construction - Commercial",
    "Addition / Alteration - Commercial", "Demolition", "Foundation", "Renovation - Interior",
    "Renovation - Exterior"]

def classifyPriority (p : Permit) : Priority :=
  if criticalThreshold ≤ p.valuation then .critical
  else if highThreshold ≤ p.valuation then .high
  else if mediumThreshold ≤ p.valuation then .medium
  else .low

def isStrategic (p : Permit) : Bool := strategicTypes.contains p.permitType

structure Processed where
  critical : List Permit
  high : List Permit
  medium : List Permit
  low : List Permit
  strategic : List Permit
  all : List Permit

/-- The permit with its priority set. -/
def Permit.classified (p : Permit) : Permit := { p with priority := some (classifyPriority p).text }

/-- One round of the loop of `process_permits`. -/
def Processed.add (acc : Processed) (permit : Permit) : Processed :=
  let priority := classifyPriority permit
  let p := permit.classified
  let acc := match priority with
    | .critical => { acc with critical := acc.critical ++ [p] }
    | .high => { acc with high := acc.high ++ [p] }
    | .medium => { acc with medium := acc.medium ++ [p] }
    | .low => { acc with low := acc.low ++ [p] }
  let acc := if isStrategic p then { acc with strategic := acc.strategic ++ [p] } else acc
  { acc with all := acc.all ++ [p] }

def processPermits (data : Raw) : Processed := data.permits.foldl Processed.add ⟨[], [], [], [], [], []⟩

section Sorting

variable {α : Type} (key : α → Int)

theorem sortDescending_perm (xs : List α) : (sortDescending key xs).Perm xs := List.perm_insertionSort _ xs

theorem sortDescending_sorted (xs : List α) :
    (sortDescending key xs).Pairwise fun a b => key b ≤ key a := by
  have : Std.Total fun a b => key b ≤ key a := ⟨fun a b => Int.le_total (key b) (key a)⟩
  have : IsTrans α fun a b => key b ≤ key a := ⟨fun a b c hab hbc => hbc.trans hab⟩
  exact List.pairwise_insertionSort _ xs

end Sorting

/-- The half-open interval of valuations of a priority. -/
def Priority.covers : Priority → Int → Bool
  | .critical, v => criticalThreshold ≤ v
  | .high, v => highThreshold ≤ v ∧ v < criticalThreshold
  | .medium, v => mediumThreshold ≤ v ∧ v < highThreshold
  | .low, v => v < mediumThreshold

theorem covers_iff {c : Priority} {p : Permit} : c.covers p.valuation = true ↔ classifyPriority p = c := by
  have hhigh : highThreshold < criticalThreshold := by decide
  have hmedium : mediumThreshold < highThreshold := by decide
  unfold classifyPriority
  split_ifs <;> cases c <;> simp [Priority.covers] <;> omega

/-- The permits of one bucket, in order. -/
def bucket (c : Priority) (permits : List Permit) : List Permit :=
  permits.filter fun p => c.covers p.valuation

theorem bucket_append (c : Priority) (permits : List Permit) (p : Permit) : bucket c (permits ++ [p]) =
    bucket c permits ++ if classifyPriority p = c then [p] else [] := by
  rw [bucket, bucket, List.filter_append, List.filter_singleton]
  by_cases h : classifyPriority p = c
  · rw [if_pos h, covers_iff.mpr h]; rfl
  · rw [if_neg h, Bool.eq_false_iff.mpr fun hc => h (covers_iff.mp hc)]; rfl

@[simp] theorem isStrategic_classified (p : Permit) : isStrategic p.classified = isStrategic p := rfl

/-- The loop of `process_permits` filters into each bucket. -/
theorem processPermits_eq (data : Raw) : processPermits data =
    { critical := (bucket .critical data.permits).map Permit.classified
      high := (bucket .high data.permits).map Permit.classified
      medium := (bucket .medium data.permits).map Permit.classified
      low := (bucket .low data.permits).map Permit.classified
      strategic := (data.permits.filter fun p => isStrategic p).map Permit.classified
      all := data.permits.map Permit.classified } := by
  unfold processPermits
  induction data.permits using List.reverseRecOn with
  | nil => rfl
  | append_singleton permits p ih =>
    rw [List.foldl_append, ih, List.foldl_cons, List.foldl_nil]
    simp only [bucket_append, List.filter_append, List.filter_singleton]
    by_cases hs : isStrategic p = true
    · cases hc : classifyPriority p <;> simp [Processed.add, hc, hs]
    · cases hc : classifyPriority p <;> simp [Processed.add, hc, hs]

end NoblePort.Permits
