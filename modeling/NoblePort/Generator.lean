import Mathlib.Data.List.GetD
import Mathlib.Logic.Function.Basic
import NoblePort.Totals

/-!
# The permits of a day

`generate_permits_for_municipality` of `scripts/fetch_permits.py`. Every number
in a permit is drawn from the MD5 of a seed of its own, so what the script can
produce is exactly what its ranges and tables allow.
-/
namespace NoblePort.Generator

open NoblePort.Permits NoblePort.Totals

structure Municipality where
  name : String
  type : String
  /-- `prefix` of the permit ids. -/
  idPrefix : String
  portal : String
  deriving DecidableEq, Repr

/-- `MUNICIPALITIES`. -/
def table : List Municipality :=
  [⟨"Amesbury", "City", "A", "https://amesbury.portal.opengov.com"⟩,
    ⟨"Andover", "Town", "AN", "https://andoverma.portal.opengov.com"⟩,
    ⟨"Beverly", "City", "B", "https://beverlyma.portal.opengov.com"⟩,
    ⟨"Boxford", "Town", "BX", "https://www.boxford.org/building"⟩,
    ⟨"Danvers", "Town", "D", "https://danversma.portal.opengov.com"⟩,
    ⟨"Essex", "Town", "E", "https://www.essexma.org/building"⟩,
    ⟨"Georgetown", "Town", "GT", "https://www.georgetownma.gov/building"⟩,
    ⟨"Gloucester", "City", "G", "https://gloucesterma.portal.opengov.com"⟩,
    ⟨"Groveland", "Town", "GV", "https://www.grovelandma.com/building"⟩,
    ⟨"Hamilton", "Town", "H", "https://www.hamiltonma.gov/building"⟩,
    ⟨"Haverhill", "City", "HV", "https://haverhillma.portal.opengov.com"⟩,
    ⟨"Ipswich", "Town", "I", "https://ipswichma.portal.opengov.com"⟩,
    ⟨"Lawrence", "City", "L", "https://lawrencema.portal.opengov.com"⟩,
    ⟨"Lynn", "City", "LY", "https://lynnma.portal.opengov.com"⟩,
    ⟨"Lynnfield", "Town", "LF", "https://www.lynnfield.org/building"⟩,
    ⟨"Manchester-by-the-Sea", "Town", "MBS", "https://www.manchester.ma.us/building"⟩,
    ⟨"Marblehead", "Town", "MB", "https://marbleheadma.portal.opengov.com"⟩,
    ⟨"Merrimac", "Town", "MR", "https://www.merrimac01860.info/building"⟩,
    ⟨"Methuen", "City", "MT", "https://methuenma.portal.opengov.com"⟩,
    ⟨"Middleton", "Town", "MD", "https://www.middletonma.gov/building"⟩,
    ⟨"Nahant", "Town", "NH", "https://www.nahant.org/building"⟩,
    ⟨"Newbury", "Town", "NB", "https://www.townofnewbury.org/building"⟩,
    ⟨"Newburyport", "City", "NP", "https://newburyportma.portal.opengov.com"⟩,
    ⟨"North Andover", "Town", "NA", "https://northandoverma.portal.opengov.com"⟩,
    ⟨"Peabody", "City", "P", "https://peabodyma.portal.opengov.com"⟩,
    ⟨"Rockport", "Town", "RK", "https://www.rockportma.gov/building"⟩,
    ⟨"Rowley", "Town", "RW", "https://www.townofrowley.net/building"⟩,
    ⟨"Salem", "City", "SL", "https://salemma.portal.opengov.com"⟩,
    ⟨"Salisbury", "Town", "SB", "https://www.salisburyma.gov/building"⟩,
    ⟨"Saugus", "Town", "SG", "https://saugusma.portal.opengov.com"⟩,
    ⟨"Swampscott", "Town", "SW", "https://www.swampscottma.gov/building"⟩,
    ⟨"Topsfield", "Town", "TF", "https://www.topsfield-ma.gov/building"⟩,
    ⟨"Wenham", "Town", "WH", "https://www.wenhamma.gov/building"⟩,
    ⟨"West Newbury", "Town", "WN", "https://www.westnewbury.net/building-department"⟩]

def permitTypes : List String :=
  ["New Construction - Residential", "New Construction - Commercial",
    "Addition / Alteration - Residential", "Addition / Alteration - Commercial",
    "Renovation - Interior", "Renovation - Exterior", "Demolition", "Foundation", "Roofing",
    "Electrical", "Plumbing", "HVAC / Mechanical", "Solar Installation", "Deck / Porch", "Pool / Spa",
    "Accessory Structure", "Change of Use", "Sign Permit", "Sprinkler System", "Elevator"]

def contractors : List String :=
  ["North Shore Builders", "Essex Building Group", "Harbor Construction Group",
    "Bay State Contracting", "Minuteman Contracting", "Freedom Builders LLC", "Northshore Renovations",
    "Cape Ann Contractors", "Colonial Construction", "Yankee Builders Inc.",
    "Patriot Construction Co.", "Seacoast Construction", "Atlantic Construction",
    "GC Construction LLC", "Premier Home Renovations", "Merrimack Valley Builders",
    "Pilgrim Construction", "Coastal Builders Inc.", "New England Build Co.",
    "Granite State Construction"]

def applicants : List String :=
  ["John Smith", "Maria Garcia", "Robert Johnson", "Emily Davis", "Michael Brown", "Sarah Anderson",
    "David Martinez", "Jennifer Wilson", "Christopher Lee", "Patricia Harris", "James Taylor",
    "Linda Thomas"]

def streetTypes : List String :=
  ["Main St", "Oak Ave", "Elm St", "Maple Dr", "Cedar Rd", "Park St", "Washington Blvd",
    "Highland Ave", "Spring St", "Summer St", "Winter St", "North St", "South St", "East St",
    "West St", "Bridge St", "River Rd", "Ocean Blvd", "Union St", "Market St", "School St",
    "Church St", "Federal St", "Liberty St", "Pleasant St", "Prospect St", "Chestnut St",
    "Central Ave", "Mill St", "Pond Rd"]

def today : String := "2026-03-22"

/-- `md5` is `int(hashlib.md5(seed_str.encode()).hexdigest(), 16)`. -/
def deterministicRand (md5 : String → Nat) (seed : String) (low high : Nat) : Nat :=
  low + md5 seed % (high - low + 1)

/-- The bounds of the valuation, by permit type. -/
def valuationRange (permitType : String) : Nat × Nat :=
  if ["New Construction - Commercial", "New Construction - Residential"].contains permitType then
    (150000, 3500000)
  else if ["Addition / Alteration - Commercial", "Renovation - Interior", "Renovation - Exterior"].contains
      permitType then (50000, 2500000)
  else if ["Demolition", "Foundation"].contains permitType then (75000, 2800000)
  else if ["Electrical", "Plumbing", "HVAC / Mechanical"].contains permitType then (15000, 2200000)
  else if ["Solar Installation"].contains permitType then (20000, 1800000)
  else if ["Roofing", "Deck / Porch", "Pool / Spa"].contains permitType then (10000, 2000000)
  else (5000, 1500000)

def isNewConstruction (permitType : String) : Bool :=
  ["New Construction - Residential", "New Construction - Commercial"].contains permitType

/-- A permit with the fields that only the raw file has. -/
structure Generated where
  permit : Permit
  municipalityType : String
  sqFt : Option Nat
  status : String
  fetchedAt : String
  deriving DecidableEq, Repr

/-- `{n:02d}`. -/
def twoDigits (n : Nat) : String := if n < 10 then s!"0{n}" else s!"{n}"

/-- One round of the loop over the permits of a municipality. -/
def generatePermit (md5 : String → Nat) (fetchTime : String) (muni : Municipality) (i : Nat) : Generated :=
  let seed := s!"{muni.name}-{today}-{i}"
  let permitNum := deterministicRand md5 s!"id-{seed}" 1000 9999
  let ptypeIdx := deterministicRand md5 s!"type-{seed}" 0 (permitTypes.length - 1)
  let permitType := permitTypes.getD ptypeIdx ""
  let streetNum := deterministicRand md5 s!"addr-{seed}" 10 999
  let streetIdx := deterministicRand md5 s!"street-{seed}" 0 (streetTypes.length - 1)
  let street := streetTypes.getD streetIdx ""
  let appIdx := deterministicRand md5 s!"app-{seed}" 0 (applicants.length - 1)
  let contIdx := deterministicRand md5 s!"cont-{seed}" 0 (contractors.length - 1)
  let (low, high) := valuationRange permitType
  let valuation := deterministicRand md5 s!"val-{seed}" low high
  let sqFt :=
    if isNewConstruction permitType then some (deterministicRand md5 s!"sqft-{seed}" 800 8500) else none
  let hour := deterministicRand md5 s!"hour-{seed}" 0 23
  let minute := deterministicRand md5 s!"min-{seed}" 0 59
  { permit :=
      { permitId := s!"{muni.idPrefix}-BP-2026-{permitNum}"
        municipality := muni.name
        permitType
        address := s!"{streetNum} {street}, {muni.name}, MA"
        applicant := applicants.getD appIdx ""
        contractor := contractors.getD contIdx ""
        valuation
        issuedDate := s!"{today} {twoDigits hour}:{twoDigits minute}"
        portalUrl := muni.portal
        priority := none }
    municipalityType := muni.type
    sqFt
    status := "Issued"
    fetchedAt := fetchTime }

/-- `random.seed` at its beginning is without effect: nothing is drawn from `random`. -/
def generatePermitsForMunicipality (md5 : String → Nat) (fetchTime : String) (muni : Municipality) :
    List Generated :=
  let skipChance := deterministicRand md5 s!"skip-{muni.name}-{today}" 0 9
  if skipChance < 2 then []
  else
    let numPermits := deterministicRand md5 s!"count-{muni.name}-{today}" 1 7
    (List.range numPermits).map (generatePermit md5 fetchTime muni)

/-- A permit as the tables and ranges allow it. -/
structure WellFormed (fetchTime : String) (muni : Municipality) (g : Generated) : Prop where
  permitId : ∃ n, 1000 ≤ n ∧ n ≤ 9999 ∧ g.permit.permitId = s!"{muni.idPrefix}-BP-2026-{n}"
  municipality : g.permit.municipality = muni.name ∧ g.municipalityType = muni.type ∧
    g.permit.portalUrl = muni.portal
  permitType : g.permit.permitType ∈ permitTypes
  address : ∃ n street, 10 ≤ n ∧ n ≤ 999 ∧ street ∈ streetTypes ∧
    g.permit.address = s!"{n} {street}, {muni.name}, MA"
  applicant : g.permit.applicant ∈ applicants
  contractor : g.permit.contractor ∈ contractors
  valuation : ∃ n : Nat, (valuationRange g.permit.permitType).1 ≤ n ∧
    n ≤ (valuationRange g.permit.permitType).2 ∧ g.permit.valuation = n
  sqFt : if isNewConstruction g.permit.permitType then ∃ n, 800 ≤ n ∧ n ≤ 8500 ∧ g.sqFt = some n
    else g.sqFt = none
  issuedDate : ∃ hour minute, hour ≤ 23 ∧ minute ≤ 59 ∧
    g.permit.issuedDate = s!"{today} {twoDigits hour}:{twoDigits minute}"
  rest : g.permit.priority = none ∧ g.status = "Issued" ∧ g.fetchedAt = fetchTime

section Numbers

/-- What is drawn for one permit. -/
inductive Field where
  | id | type | addr | street | app | cont | val | sqft | hour | min
  deriving DecidableEq, Repr

/-- The word that its seed begins with. -/
def Field.word : Field → String
  | .id => "id"
  | .type => "type"
  | .addr => "addr"
  | .street => "street"
  | .app => "app"
  | .cont => "cont"
  | .val => "val"
  | .sqft => "sqft"
  | .hour => "hour"
  | .min => "min"

/-- Its bounds, for a permit of this type. -/
def Field.range (permitType : String) : Field → Nat × Nat
  | .id => (1000, 9999)
  | .type => (0, permitTypes.length - 1)
  | .addr => (10, 999)
  | .street => (0, streetTypes.length - 1)
  | .app => (0, applicants.length - 1)
  | .cont => (0, contractors.length - 1)
  | .val => valuationRange permitType
  | .sqft => (800, 8500)
  | .hour => (0, 23)
  | .min => (0, 59)

def typeOf (numbers : Field → Nat) : String := permitTypes.getD (numbers .type) ""

/-- The permit that has these numbers. -/
def describe (fetchTime : String) (muni : Municipality) (numbers : Field → Nat) : Generated where
  permit :=
    { permitId := s!"{muni.idPrefix}-BP-2026-{numbers .id}"
      municipality := muni.name
      permitType := typeOf numbers
      address :=
        let street := streetTypes.getD (numbers .street) ""
        s!"{numbers .addr} {street}, {muni.name}, MA"
      applicant := applicants.getD (numbers .app) ""
      contractor := contractors.getD (numbers .cont) ""
      valuation := numbers .val
      issuedDate := s!"{today} {twoDigits (numbers .hour)}:{twoDigits (numbers .min)}"
      portalUrl := muni.portal
      priority := none }
  municipalityType := muni.type
  sqFt := if isNewConstruction (typeOf numbers) then some (numbers .sqft) else none
  status := "Issued"
  fetchedAt := fetchTime

/-- All numbers are within their bounds. -/
def InRange (numbers : Field → Nat) : Prop :=
  ∀ f : Field, (f.range (typeOf numbers)).1 ≤ numbers f ∧ numbers f ≤ (f.range (typeOf numbers)).2

/-- What is hashed in a run. -/
inductive Seed where
  | skip (name : String)
  | count (name : String)
  | field (f : Field) (name : String) (i : Nat)

def Seed.text : Seed → String
  | .skip name => s!"skip-{name}-{today}"
  | .count name => s!"count-{name}-{today}"
  | .field f name i =>
    let seed := s!"{name}-{today}-{i}"
    s!"{f.word}-{seed}"

/-- The numbers of permit `i`. -/
def drawn (md5 : String → Nat) (name : String) (i : Nat) (f : Field) : Nat :=
  let permitType := permitTypes.getD (deterministicRand md5 (Seed.field .type name i).text 0
    (permitTypes.length - 1)) ""
  deterministicRand md5 (Seed.field f name i).text (f.range permitType).1 (f.range permitType).2

theorem generatePermit_eq (md5 : String → Nat) (fetchTime : String) (muni : Municipality) (i : Nat) :
    generatePermit md5 fetchTime muni i = describe fetchTime muni (drawn md5 muni.name i) := rfl

end Numbers

section Seeds

variable {α : Type*}

/-- A text determines what stands before its first separator, and what after it. -/
theorem cut_inj {c : α} {xs xs' ys ys' : List α} (hxs : c ∉ xs) (hxs' : c ∉ xs')
    (h : xs ++ c :: ys = xs' ++ c :: ys') : xs = xs' ∧ ys = ys' := by
  induction xs generalizing xs' with
  | nil =>
    cases xs' with
    | nil => exact ⟨rfl, (List.cons.inj h).2⟩
    | cons a xs' =>
      have hhead : c = a := (List.cons.inj h).1
      exact absurd (hhead ▸ List.mem_cons_self) hxs'
  | cons a xs ih =>
    cases xs' with
    | nil =>
      have hhead : a = c := (List.cons.inj h).1
      exact absurd (hhead ▸ List.mem_cons_self) hxs
    | cons b xs' =>
      obtain ⟨hhead, htail⟩ := List.cons.inj h
      obtain ⟨hpre, hpost⟩ := ih (fun hmem => hxs (List.mem_cons_of_mem _ hmem))
        (fun hmem => hxs' (List.mem_cons_of_mem _ hmem)) htail
      exact ⟨by rw [hhead, hpre], hpost⟩

/-- Likewise for its last separator. -/
theorem cut_last_inj {c : α} {xs xs' ys ys' : List α} (hys : c ∉ ys) (hys' : c ∉ ys')
    (h : xs ++ c :: ys = xs' ++ c :: ys') : xs = xs' ∧ ys = ys' := by
  have hreverse : ys.reverse ++ c :: xs.reverse = ys'.reverse ++ c :: xs'.reverse := by
    simpa using congrArg List.reverse h
  obtain ⟨hpost, hpre⟩ := cut_inj (by simpa using hys) (by simpa using hys') hreverse
  exact ⟨List.reverse_injective hpre, List.reverse_injective hpost⟩

theorem dash_notMem_number (n : Nat) : '-' ∉ (toString n).toList := by
  intro hmem
  change '-' ∈ n.repr.toList at hmem
  rw [Nat.toList_repr] at hmem
  have hdigit := Nat.isDigit_of_mem_toDigits (by decide) (by decide) hmem
  exact absurd hdigit (by decide)

theorem number_inj {n n' : Nat} (h : (toString n).toList = (toString n').toList) : n = n' := by
  change n.repr.toList = n'.repr.toList at h
  rw [Nat.toList_repr, Nat.toList_repr] at h
  have hback (m : Nat) : Nat.ofDigitChars 10 (Nat.toDigits 10 m) 0 = m :=
    Nat.ofDigitChars_toDigits (by decide) (by decide)
  calc n = Nat.ofDigitChars 10 (Nat.toDigits 10 n) 0 := (hback n).symm
    _ = Nat.ofDigitChars 10 (Nat.toDigits 10 n') 0 := by rw [h]
    _ = n' := hback n'

def Seed.word : Seed → String
  | .skip _ => "skip"
  | .count _ => "count"
  | .field f _ _ => f.word

def Seed.rest : Seed → String
  | .skip name | .count name => s!"{name}-{today}"
  | .field _ name i => s!"{name}-{today}-{i}"

theorem Seed.text_eq (s : Seed) : s.text.toList = s.word.toList ++ '-' :: s.rest.toList := by
  cases s <;> simp [Seed.text, Seed.word, Seed.rest, toString]

theorem dash_notMem_word (s : Seed) : '-' ∉ s.word.toList := by
  have hfield (f : Field) : '-' ∉ f.word.toList := by
    cases f <;> decide
  have hconstant : '-' ∉ "skip".toList ∧ '-' ∉ "count".toList := by decide
  cases s with
  | skip => exact hconstant.1
  | count => exact hconstant.2
  | field f => exact hfield f

theorem Field.word_injective : Function.Injective Field.word := by
  intro f f' h
  cases f <;> cases f' <;> first | rfl | exact absurd h (by decide)

theorem Field.word_ne (f : Field) : f.word ≠ "skip" ∧ f.word ≠ "count" := by
  cases f <;> decide

theorem name_inj {name other : String} (h : (s!"{name}-{today}").toList = (s!"{other}-{today}").toList) :
    name = other := by
  have h : name.toList ++ ("-" ++ today).toList = other.toList ++ ("-" ++ today).toList := by
    simpa [toString] using h
  exact String.toList_injective (List.append_cancel_right h)

theorem name_number_inj {name other : String} {i j : Nat}
    (h : (s!"{name}-{today}-{i}").toList = (s!"{other}-{today}-{j}").toList) : name = other ∧ i = j := by
  have h : (s!"{name}-{today}").toList ++ '-' :: (toString i).toList =
      (s!"{other}-{today}").toList ++ '-' :: (toString j).toList := by
    simpa [toString] using h
  obtain ⟨hname, hi⟩ := cut_last_inj (dash_notMem_number i) (dash_notMem_number j) h
  exact ⟨name_inj hname, number_inj hi⟩

/-- No two draws of a run hash the same text. -/
theorem Seed.text_injective : Function.Injective Seed.text := by
  intro s s' h
  have h : s.text.toList = s'.text.toList := congrArg _ h
  rw [Seed.text_eq, Seed.text_eq] at h
  obtain ⟨hword, hrest⟩ := cut_inj (dash_notMem_word s) (dash_notMem_word s') h
  have hword : s.word = s'.word := String.toList_injective hword
  cases s with
  | skip name =>
    cases s' with
    | skip name' => rw [name_inj hrest]
    | count => exact absurd (show "skip" = "count" from hword) (by decide)
    | field f => exact absurd hword.symm f.word_ne.1
  | count name =>
    cases s' with
    | skip => exact absurd (show "count" = "skip" from hword) (by decide)
    | count name' => rw [name_inj hrest]
    | field f => exact absurd hword.symm f.word_ne.2
  | field f name i =>
    cases s' with
    | skip => exact absurd hword f.word_ne.1
    | count => exact absurd hword f.word_ne.2
    | field f' name' i' =>
      obtain ⟨hname, hi⟩ := name_number_inj hrest
      rw [Field.word_injective hword, hname, hi]

end Seeds

section Bounds

variable {md5 : String → Nat} {fetchTime name permitType : String} {muni : Municipality} {g : Generated}
  {numbers : Field → Nat} {i : Nat}

theorem deterministicRand_bounds (seed : String) {low high : Nat} (h : low ≤ high) :
    low ≤ deterministicRand md5 seed low high ∧ deterministicRand md5 seed low high ≤ high := by
  have hmod : md5 seed % (high - low + 1) < high - low + 1 := Nat.mod_lt _ (Nat.succ_pos _)
  unfold deterministicRand
  omega

/-- Each number within the bounds is drawn from some hash. -/
theorem deterministicRand_eq {seed : String} {low high n : Nat} (h : low ≤ n ∧ n ≤ high)
    (hmd5 : md5 seed = n - low) : deterministicRand md5 seed low high = n := by
  unfold deterministicRand
  rw [hmd5, Nat.mod_eq_of_lt (by omega)]
  omega

theorem valuationRange_le (permitType : String) :
    (valuationRange permitType).1 ≤ (valuationRange permitType).2 ∧
      (valuationRange permitType).2 ≤ 3500000 := by
  unfold valuationRange
  split_ifs <;> decide

theorem valuationRange_pos (permitType : String) : 0 < (valuationRange permitType).1 := by
  unfold valuationRange
  split_ifs <;> decide

theorem range_le (permitType : String) (f : Field) :
    (f.range permitType).1 ≤ (f.range permitType).2 ∧ (f.range permitType).2 ≤ 3500000 := by
  cases f with
  | val => exact valuationRange_le permitType
  | _ => exact ⟨Nat.le_of_ble_eq_true rfl, Nat.le_of_ble_eq_true rfl⟩

theorem inRange_drawn (md5 : String → Nat) (name : String) (i : Nat) : InRange (drawn md5 name i) :=
  fun f => deterministicRand_bounds _ (range_le _ f).1

theorem drawn_eq (h : InRange numbers)
    (hmd5 : ∀ f : Field, md5 (Seed.field f name i).text = numbers f - (f.range (typeOf numbers)).1) :
    drawn md5 name i = numbers := by
  have htype : deterministicRand md5 (Seed.field .type name i).text 0 (permitTypes.length - 1) =
      numbers .type := deterministicRand_eq (h .type) (hmd5 .type)
  funext f
  unfold drawn
  rw [htype]
  exact deterministicRand_eq (h f) (hmd5 f)

theorem getD_mem {xs : List String} {k : Nat} (hne : xs ≠ []) (hk : k ≤ xs.length - 1) : xs.getD k "" ∈ xs := by
  have hlt : k < xs.length := by
    have := List.length_pos_of_ne_nil hne
    omega
  rw [List.getD_eq_getElem _ _ hlt]
  exact List.getElem_mem hlt

theorem exists_getD {xs : List String} {x : String} (h : x ∈ xs) : ∃ k ≤ xs.length - 1, xs.getD k "" = x := by
  obtain ⟨k, hk, hx⟩ := List.mem_iff_getElem.mp h
  refine ⟨k, by omega, ?_⟩
  rw [List.getD_eq_getElem _ _ hk, hx]

theorem wellFormed_describe (h : InRange numbers) :
    WellFormed fetchTime muni (describe fetchTime muni numbers) where
  permitId := ⟨numbers .id, (h .id).1, (h .id).2, rfl⟩
  municipality := ⟨rfl, rfl, rfl⟩
  permitType := getD_mem (by decide) (h .type).2
  address := ⟨numbers .addr, _, (h .addr).1, (h .addr).2, getD_mem (by decide) (h .street).2, rfl⟩
  applicant := getD_mem (by decide) (h .app).2
  contractor := getD_mem (by decide) (h .cont).2
  valuation := ⟨numbers .val, (h .val).1, (h .val).2, rfl⟩
  sqFt := by
    change if isNewConstruction (typeOf numbers) then _ else _
    split
    · rename_i hnew
      exact ⟨numbers .sqft, (h .sqft).1, (h .sqft).2, if_pos hnew⟩
    · rename_i hold
      exact if_neg hold
  issuedDate := ⟨numbers .hour, numbers .min, (h .hour).2, (h .min).2, rfl⟩
  rest := ⟨rfl, rfl, rfl⟩

/-- A permit that the tables and ranges allow has its numbers. -/
theorem exists_describe (h : WellFormed fetchTime muni g) :
    ∃ numbers, InRange numbers ∧ describe fetchTime muni numbers = g := by
  obtain ⟨⟨permitId, municipality, permitType, address, applicant, contractor, valuation, issuedDate, portalUrl,
    priority⟩, municipalityType, sqFt, status, fetchedAt⟩ := g
  obtain ⟨⟨id, hid, hid', rfl⟩, ⟨rfl, rfl, rfl⟩, htype, ⟨addr, street, haddr, haddr', hstreet, rfl⟩, happ,
    hcont, ⟨val, hval, hval', rfl⟩, hsqFt, ⟨hour, minute, hhour, hminute, rfl⟩, rfl, rfl, rfl⟩ := h
  obtain ⟨type, htypeLe, rfl⟩ := exists_getD htype
  obtain ⟨street, hstreetLe, rfl⟩ := exists_getD hstreet
  obtain ⟨app, happLe, rfl⟩ := exists_getD happ
  obtain ⟨cont, hcontLe, rfl⟩ := exists_getD hcont
  obtain ⟨sqft, hsqft, hsqft', rfl⟩ : ∃ n, 800 ≤ n ∧ n ≤ 8500 ∧
      (if isNewConstruction (permitTypes.getD type "") then some n else none) = sqFt := by
    dsimp only at hsqFt
    split at hsqFt
    · rename_i hnew
      obtain ⟨n, hn, hn', rfl⟩ := hsqFt
      exact ⟨n, hn, hn', if_pos hnew⟩
    · rename_i hold
      exact ⟨800, by decide, by decide, by rw [if_neg hold, hsqFt]⟩
  let numbers : Field → Nat
    | .id => id
    | .type => type
    | .addr => addr
    | .street => street
    | .app => app
    | .cont => cont
    | .val => val
    | .sqft => sqft
    | .hour => hour
    | .min => minute
  refine ⟨numbers, fun f => ?_, rfl⟩
  cases f with
  | id => exact ⟨hid, hid'⟩
  | type => exact ⟨Nat.zero_le _, htypeLe⟩
  | addr => exact ⟨haddr, haddr'⟩
  | street => exact ⟨Nat.zero_le _, hstreetLe⟩
  | app => exact ⟨Nat.zero_le _, happLe⟩
  | cont => exact ⟨Nat.zero_le _, hcontLe⟩
  | val => exact ⟨hval, hval'⟩
  | sqft => exact ⟨hsqft, hsqft'⟩
  | hour => exact ⟨Nat.zero_le _, hhour⟩
  | min => exact ⟨Nat.zero_le _, hminute⟩

end Bounds

section Day

variable {md5 : String → Nat} {fetchTime : String} {muni : Municipality}

/-- The municipality of this name; of another name there is no seed. -/
def byName (name : String) : Municipality :=
  (table.find? fun muni => muni.name == name).getD (table.head (by decide))

theorem byName_mem (name : String) : byName name ∈ table := by
  unfold byName
  cases hfind : table.find? fun muni => muni.name == name with
  | none => exact List.head_mem (by decide)
  | some muni => exact List.mem_of_find?_eq_some hfind

theorem byName_name : ∀ muni ∈ table, byName muni.name = muni := by
  decide +kernel

theorem generate_eq (md5 : String → Nat) (fetchTime : String) (muni : Municipality) :
    generatePermitsForMunicipality md5 fetchTime muni =
      if deterministicRand md5 (Seed.skip muni.name).text 0 9 < 2 then []
      else (List.range (deterministicRand md5 (Seed.count muni.name).text 1 7)).map fun i =>
        describe fetchTime muni (drawn md5 muni.name i) := by
  have hround : generatePermit md5 fetchTime muni = fun i => describe fetchTime muni (drawn md5 muni.name i) :=
    funext (generatePermit_eq md5 fetchTime muni)
  rw [← hround]
  rfl

theorem mem_generate {g : Generated} (h : g ∈ generatePermitsForMunicipality md5 fetchTime muni) :
    ∃ i, g = describe fetchTime muni (drawn md5 muni.name i) := by
  rw [generate_eq] at h
  split at h
  · cases h
  · obtain ⟨i, _, rfl⟩ := List.mem_map.mp h
    exact ⟨i, rfl⟩

theorem generate_wellFormed : ∀ g ∈ generatePermitsForMunicipality md5 fetchTime muni,
    WellFormed fetchTime muni g := by
  intro g hg
  obtain ⟨i, rfl⟩ := mem_generate hg
  exact wellFormed_describe (inRange_drawn md5 muni.name i)

theorem generate_length : (generatePermitsForMunicipality md5 fetchTime muni).length ≤ 7 := by
  rw [generate_eq]
  split
  · exact Nat.zero_le _
  · rw [List.length_map, List.length_range]
    exact (deterministicRand_bounds _ (by decide)).2

variable (day : Municipality → List Generated) (numbers : Municipality → Nat → Field → Nat)

/-- What each seed must hash to for these permits, up to a multiple. -/
def wanted : Seed → Nat
  | .skip name => if day (byName name) = [] then 0 else 2
  | .count name => (day (byName name)).length - 1
  | .field f name i => numbers (byName name) i f - (f.range (typeOf (numbers (byName name) i))).1

theorem wanted_lt (hlength : ∀ muni ∈ table, (day muni).length ≤ 7)
    (hrange : ∀ muni i, InRange (numbers muni i)) (s : Seed) : wanted day numbers s < 2 ^ 128 := by
  cases s with
  | skip name =>
    rw [wanted]
    split_ifs <;> decide
  | count name =>
    have hshort := hlength _ (byName_mem name)
    rw [wanted]
    omega
  | field f name i =>
    have hhigh := (hrange (byName name) i f).2.trans (range_le _ f).2
    rw [wanted]
    omega

variable {day numbers}

/-- A hash that is wanted generates the permits. -/
theorem generate_of_wanted (hmuni : muni ∈ table) (hlength : (day muni).length ≤ 7)
    (hrange : ∀ i, InRange (numbers muni i))
    (hday : ∀ i g, (day muni)[i]? = some g → describe fetchTime muni (numbers muni i) = g)
    (hmd5 : ∀ s, md5 s.text = wanted day numbers s) :
    generatePermitsForMunicipality md5 fetchTime muni = day muni := by
  have hname := byName_name muni hmuni
  have hskip := hmd5 (.skip muni.name)
  have hcount := hmd5 (.count muni.name)
  simp only [wanted, hname] at hskip hcount
  rw [generate_eq]
  by_cases hempty : day muni = []
  · rw [if_pos hempty] at hskip
    rw [deterministicRand_eq (by decide) hskip, if_pos (by decide), hempty]
  · rw [if_neg hempty] at hskip
    have hpos := List.length_pos_of_ne_nil hempty
    rw [deterministicRand_eq (n := 2) (by decide) hskip, if_neg (by decide),
      deterministicRand_eq (n := (day muni).length) (by omega) hcount]
    refine List.ext_getElem? fun i => ?_
    rw [List.getElem?_map]
    by_cases hi : i < (day muni).length
    · have hdrawn : drawn md5 muni.name i = numbers muni i := by
        refine drawn_eq (hrange i) fun f => ?_
        rw [hmd5, wanted, hname]
      rw [List.getElem?_range hi, List.getElem?_eq_getElem hi, Option.map_some, hdrawn,
        hday i _ (List.getElem?_eq_getElem hi)]
    · rw [List.getElem?_eq_none (by simpa using hi), List.getElem?_eq_none (by simpa using hi), Option.map_none]

/-- What a run can generate, over all hashes of 128 bits: for each municipality up to seven permits, each as
the tables and ranges allow it, independently of the others. -/
theorem generated_iff (fetchTime : String) (day : Municipality → List Generated) :
    (∃ md5 : String → Nat, (∀ text, md5 text < 2 ^ 128) ∧
      ∀ muni ∈ table, generatePermitsForMunicipality md5 fetchTime muni = day muni) ↔
    ∀ muni ∈ table, (day muni).length ≤ 7 ∧ ∀ g ∈ day muni, WellFormed fetchTime muni g := by
  constructor
  · rintro ⟨md5, _, h⟩ muni hmuni
    rw [← h muni hmuni]
    exact ⟨generate_length, generate_wellFormed⟩
  · intro h
    have hnumbers (muni : Municipality) (i : Nat) : ∃ numbers, InRange numbers ∧
        ∀ g, muni ∈ table → (day muni)[i]? = some g → describe fetchTime muni numbers = g := by
      by_cases hi : muni ∈ table ∧ i < (day muni).length
      · obtain ⟨numbers, hrange, hdescribe⟩ := exists_describe ((h muni hi.1).2 _ (List.getElem_mem hi.2))
        refine ⟨numbers, hrange, fun g _ hg => ?_⟩
        rw [List.getElem?_eq_getElem hi.2] at hg
        exact hdescribe.trans (Option.some.inj hg)
      · refine ⟨drawn (fun _ => 0) "" 0, inRange_drawn _ _ _, fun g hmuni hg => ?_⟩
        exact absurd ⟨hmuni, (List.getElem?_eq_some_iff.mp hg).1⟩ hi
    choose numbers hrange hday using hnumbers
    have hwanted := wanted_lt day numbers (fun muni hmuni => (h muni hmuni).1) hrange
    refine ⟨Function.extend Seed.text (wanted day numbers) fun _ => 0, fun text => ?_, fun muni hmuni => ?_⟩
    · by_cases hseed : ∃ s, Seed.text s = text
      · obtain ⟨s, rfl⟩ := hseed
        rw [Seed.text_injective.extend_apply]
        exact hwanted s
      · rw [Function.extend_apply' _ _ _ hseed]
        decide
    · exact generate_of_wanted hmuni (h muni hmuni).1 (hrange muni) (fun i g hg => hday muni i g hmuni hg)
        fun s => Seed.text_injective.extend_apply _ _ s

end Day

section Ids

variable (md5 : String → Nat) (fetchTime : String)

theorem table_names : table.map Municipality.name = municipalities := by
  decide +kernel

/-- The day that `fetch_all_permits` puts together. -/
def assignment : Assignment where
  names := municipalities
  nodup := nodup_municipalities
  permits name := (generatePermitsForMunicipality md5 fetchTime (byName name)).map Generated.permit
  named := by
    intro name hname p hp
    obtain ⟨g, hg, rfl⟩ := List.mem_map.mp hp
    rw [← table_names] at hname
    obtain ⟨muni, hmuni, rfl⟩ := List.mem_map.mp hname
    rw [byName_name muni hmuni] at hg
    exact (generate_wellFormed g hg).municipality.1
  positive := by
    intro name _ p hp
    obtain ⟨g, hg, rfl⟩ := List.mem_map.mp hp
    obtain ⟨n, hlow, _, hvaluation⟩ := (generate_wellFormed g hg).valuation
    rw [hvaluation]
    exact_mod_cast (valuationRange_pos _).trans_le hlow

variable {md5 fetchTime} {muni : Municipality}

theorem prefix_inj : ∀ muni ∈ table, ∀ muni' ∈ table, muni.idPrefix = muni'.idPrefix → muni = muni' := by
  decide +kernel

theorem dash_notMem_id : ∀ muni ∈ table, '-' ∉ muni.idPrefix.toList := by
  decide +kernel

/-- The id of a permit tells its municipality. -/
theorem eq_of_permitId {muni muni' : Municipality} {g g' : Generated} (hmuni : muni ∈ table)
    (hmuni' : muni' ∈ table) (hg : WellFormed fetchTime muni g) (hg' : WellFormed fetchTime muni' g')
    (h : g.permit.permitId = g'.permit.permitId) : muni = muni' := by
  obtain ⟨n, _, _, hn⟩ := hg.permitId
  obtain ⟨n', _, _, hn'⟩ := hg'.permitId
  rw [hn, hn'] at h
  have h := congrArg String.toList h
  have hcut : muni.idPrefix.toList ++ '-' :: ("BP-2026-" ++ toString n).toList =
      muni'.idPrefix.toList ++ '-' :: ("BP-2026-" ++ toString n').toList := by
    simpa [toString] using h
  have hpre := (cut_inj (dash_notMem_id muni hmuni) (dash_notMem_id muni' hmuni') hcut).1
  exact prefix_inj muni hmuni muni' hmuni' (String.toList_injective hpre)

theorem mem_assignment {name : String} {p : Permit} (hp : p ∈ (assignment md5 fetchTime).permits name) :
    ∃ g, WellFormed fetchTime (byName name) g ∧ g.permit = p := by
  obtain ⟨g, hg, rfl⟩ := List.mem_map.mp hp
  exact ⟨g, generate_wellFormed g hg, rfl⟩

theorem byName_inj {name name' : String} (h : name ∈ municipalities) (h' : name' ∈ municipalities)
    (heq : byName name = byName name') : name = name' := by
  rw [← table_names] at h h'
  obtain ⟨muni, hmuni, rfl⟩ := List.mem_map.mp h
  obtain ⟨muni', hmuni', rfl⟩ := List.mem_map.mp h'
  rw [byName_name muni hmuni, byName_name muni' hmuni'] at heq
  rw [heq]

/-- Permits of one id are in the list of one municipality. -/
theorem name_of_permitId {name name' : String} {p q : Permit} (hname : name ∈ municipalities)
    (hname' : name' ∈ municipalities) (hp : p ∈ (assignment md5 fetchTime).permits name)
    (hq : q ∈ (assignment md5 fetchTime).permits name') (h : p.permitId = q.permitId) : name = name' := by
  obtain ⟨g, hg, rfl⟩ := mem_assignment hp
  obtain ⟨g', hg', rfl⟩ := mem_assignment hq
  exact byName_inj hname hname' (eq_of_permitId (byName_mem name) (byName_mem name') hg hg' h)

theorem ids_within (hmuni : muni ∈ table) :
    ((assignment md5 fetchTime).permits muni.name).map Permit.permitId =
      (generatePermitsForMunicipality md5 fetchTime muni).map fun g => g.permit.permitId := by
  change ((generatePermitsForMunicipality md5 fetchTime (byName muni.name)).map Generated.permit).map _ = _
  rw [byName_name muni hmuni, List.map_map]
  rfl

/-- Permits of one id are of one municipality: ids repeat in the result of a fetch exactly when they repeat
within a municipality, and there are at most seven for each of the 34. -/
theorem fetched_ids (md5 : String → Nat) (fetchTime : String) :
    (∀ p ∈ (assignment md5 fetchTime).raw.permits, ∀ q ∈ (assignment md5 fetchTime).raw.permits,
      p.permitId = q.permitId → p.municipality = q.municipality) ∧
    (((assignment md5 fetchTime).raw.permits.map Permit.permitId).Nodup ↔
      ∀ muni ∈ table,
        ((generatePermitsForMunicipality md5 fetchTime muni).map fun g => g.permit.permitId).Nodup) ∧
    (assignment md5 fetchTime).raw.permits.length ≤ 238 := by
  have hperm := raw_permits_perm (assignment md5 fetchTime)
  refine ⟨fun p hp q hq h => ?_, ?_, ?_⟩
  · obtain ⟨name, hname, hp⟩ := (mem_raw_permits _).mp hp
    obtain ⟨name', hname', hq⟩ := (mem_raw_permits _).mp hq
    rw [(assignment md5 fetchTime).named name hname p hp, (assignment md5 fetchTime).named name' hname' q hq]
    exact name_of_permitId hname hname' hp hq h
  · rw [(hperm.map Permit.permitId).nodup_iff, List.map_flatMap, List.nodup_flatMap]
    have hdisjoint : municipalities.Pairwise (Function.onFun List.Disjoint fun name =>
        ((assignment md5 fetchTime).permits name).map Permit.permitId) := by
      refine (nodup_municipalities.imp_of_mem fun hname hname' hne => ?_)
      intro id hid hid'
      obtain ⟨p, hp, rfl⟩ := List.mem_map.mp hid
      obtain ⟨q, hq, h⟩ := List.mem_map.mp hid'
      exact hne (name_of_permitId hname hname' hp hq h.symm)
    constructor
    · rintro ⟨hnodup, _⟩ muni hmuni
      rw [← ids_within hmuni]
      refine hnodup muni.name ?_
      change muni.name ∈ municipalities
      rw [← table_names]
      exact List.mem_map_of_mem hmuni
    · intro h
      refine ⟨fun name hname => ?_, hdisjoint⟩
      change name ∈ municipalities at hname
      rw [← table_names] at hname
      obtain ⟨muni, hmuni, rfl⟩ := List.mem_map.mp hname
      rw [ids_within hmuni]
      exact h muni hmuni
  · rw [hperm.length_eq, List.length_flatMap]
    have hseven : ∀ n ∈ municipalities.map fun name => ((assignment md5 fetchTime).permits name).length,
        n ≤ 7 := by
      intro n hn
      obtain ⟨name, _, rfl⟩ := List.mem_map.mp hn
      change ((generatePermitsForMunicipality md5 fetchTime (byName name)).map Generated.permit).length ≤ 7
      rw [List.length_map]
      exact generate_length
    have hsum := List.sum_le_card_nsmul _ 7 hseven
    rwa [List.length_map] at hsum

end Ids

end NoblePort.Generator
