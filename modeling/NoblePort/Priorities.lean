import NoblePort.Digest

/-!
# The priority buckets

The buckets of `process_permits` partition the positions of the list, and of a
list that is sorted by valuation they are consecutive pieces.
-/
namespace NoblePort.Priorities

open NoblePort.Permits NoblePort.Notices NoblePort.Digest NoblePort.Values

def priorities : List Priority := [.critical, .high, .medium, .low]

def ofProcessed (processed : Processed) : Priority → List Permit
  | .critical => processed.critical
  | .high => processed.high
  | .medium => processed.medium
  | .low => processed.low

/-- The positions, in order, whose permit lies in the interval of `c`. -/
def positions (c : Priority) (permits : List Permit) : List ℕ :=
  (List.range permits.length).filter fun i => (permits[i]?).any fun p => c.covers p.valuation

/-- The items at the given positions. -/
def pick {α : Type} (xs : List α) (is : List ℕ) : List α := is.filterMap fun i => xs[i]?

/-- No permit is lost, duplicated or moved. -/
structure Partitioned (permits : List Permit) (processed : Processed) : Prop where
  all : processed.all = permits.map Permit.classified
  positions : (priorities.flatMap fun c => positions c processed.all).Perm (List.range permits.length)
  picked : ∀ c, ofProcessed processed c = pick processed.all (Priorities.positions c processed.all)
  filtered : ∀ c, ofProcessed processed c = processed.all.filter fun p => c.covers p.valuation
  sizes : processed.critical.length + processed.high.length + processed.medium.length +
    processed.low.length = permits.length
  strategic : processed.strategic = processed.all.filter fun p => isStrategic p

theorem filter_eq_pick {α : Type} (p : α → Bool) (xs : List α) :
    xs.filter p = pick xs ((List.range xs.length).filter fun i => (xs[i]?).any p) := by
  induction xs using List.reverseRecOn with
  | nil => rfl
  | append_singleton xs x ih =>
    have hbefore : ∀ i ∈ List.range xs.length, (xs ++ [x])[i]? = xs[i]? := by
      intro i hi
      exact List.getElem?_append_left (List.mem_range.mp hi)
    have hpositions : ((List.range xs.length).filter fun i => ((xs ++ [x])[i]?).any p) =
        (List.range xs.length).filter fun i => (xs[i]?).any p :=
      List.filter_congr fun i hi => by rw [hbefore i hi]
    have hpicked : ((List.range xs.length).filter fun i => (xs[i]?).any p).filterMap
        (fun i => (xs ++ [x])[i]?) = pick xs ((List.range xs.length).filter fun i => (xs[i]?).any p) :=
      List.filterMap_congr fun i hi => hbefore i (List.mem_of_mem_filter hi)
    rw [List.filter_append, List.length_append, List.length_singleton, List.range_succ,
      List.filter_append, hpositions, pick, List.filterMap_append, hpicked, ← ih]
    cases hx : p x <;> simp [hx]

theorem positions_perm (permits : List Permit) :
    (priorities.flatMap fun c => positions c permits).Perm (List.range permits.length) := by
  have hclass : ∀ c, positions c permits = (List.range permits.length).filter fun i =>
      permits[i]?.map classifyPriority = some c := by
    intro c
    refine List.filter_congr fun i _ => ?_
    cases permits[i]? with
    | none => rfl
    | some p =>
      rw [Bool.eq_iff_iff]
      simpa using covers_iff
  have hcover : ∀ i ∈ List.range permits.length,
      permits[i]?.map classifyPriority ∈ priorities.map some := by
    intro i hi
    have hlt := List.mem_range.mp hi
    rw [List.getElem?_eq_getElem hlt, Option.map_some]
    cases classifyPriority permits[i] <;> decide
  have hnodup : (priorities.map some).Nodup := by decide
  have hperm := Grouping.flatMap_filter_perm (fun i : ℕ => permits[i]?.map classifyPriority) hnodup hcover
  rw [List.flatMap_map] at hperm
  simpa only [hclass] using hperm

theorem bucket_classified (c : Priority) (permits : List Permit) :
    (bucket c permits).map Permit.classified =
      (permits.map Permit.classified).filter fun p => c.covers p.valuation := by
  rw [bucket, List.filter_map]
  rfl

theorem ofProcessed_eq (data : Raw) (c : Priority) : ofProcessed (processPermits data) c =
    (data.permits.map Permit.classified).filter fun p => c.covers p.valuation := by
  rw [processPermits_eq]
  cases c <;> exact bucket_classified ..

theorem processPermits_partitioned (data : Raw) : Partitioned data.permits (processPermits data) := by
  have hall : (processPermits data).all = data.permits.map Permit.classified := by rw [processPermits_eq]
  have hpositions : (priorities.flatMap fun c => positions c (processPermits data).all).Perm
      (List.range data.permits.length) := by
    have hperm := positions_perm (data.permits.map Permit.classified)
    rwa [List.length_map, ← hall] at hperm
  have hpicked : ∀ c, ofProcessed (processPermits data) c =
      pick (processPermits data).all (positions c (processPermits data).all) := by
    intro c
    rw [ofProcessed_eq, hall]
    exact filter_eq_pick ..
  refine ⟨hall, hpositions, hpicked, ?_, ?_, ?_⟩
  · intro c
    rw [hall, ofProcessed_eq]
  · have hlength : ∀ c, (ofProcessed (processPermits data) c).length =
        (data.permits.filter fun p => classifyPriority p = c).length := by
      intro c
      rw [ofProcessed_eq, ← bucket_classified, List.length_map, bucket]
      exact congrArg List.length (List.filter_congr fun p _ => by
        rw [Bool.eq_iff_iff, covers_iff, decide_eq_true_eq])
    have hnodup : priorities.Nodup := by decide
    have hcover : ∀ p ∈ data.permits, classifyPriority p ∈ priorities := by
      intro p _
      cases classifyPriority p <;> decide
    have hperm := Grouping.flatMap_filter_perm classifyPriority hnodup hcover
    rw [← hperm.length_eq]
    simp [priorities, ← hlength, ofProcessed]
    omega
  · rw [processPermits_eq, List.filter_map]
    rfl

/-- The valuations do not increase. -/
def Descending (permits : List Permit) : Prop := permits.Pairwise fun p q => q.valuation ≤ p.valuation

/-- A property that later items pass on to earlier ones splits the list. -/
theorem filter_append_filter_not {α : Type} {p : α → Bool} {xs : List α}
    (h : xs.Pairwise fun a b => p b = true → p a = true) : xs.filter p ++ xs.filter (fun x => !p x) = xs := by
  induction xs with
  | nil => rfl
  | cons x xs ih =>
    obtain ⟨hx, hxs⟩ := List.pairwise_cons.mp h
    cases hp : p x with
    | true => simp [hp, ih hxs]
    | false =>
      have hnone : xs.filter p = [] := by
        rw [List.filter_eq_nil_iff]
        intro y hy hpy
        rw [hx y hy hpy] at hp
        cases hp
      have hrest := ih hxs
      rw [hnone, List.nil_append] at hrest
      simp [hp, hnone, hrest]

/-- The permits below a threshold. -/
def below (t : ℤ) (permits : List Permit) : List Permit := permits.filter fun p => p.valuation < t

theorem split_at {permits : List Permit} (h : Descending permits) (t : ℤ) :
    (permits.filter fun p => t ≤ p.valuation) ++ below t permits = permits := by
  have hpass : permits.Pairwise fun p q => decide (t ≤ q.valuation) = true → decide (t ≤ p.valuation) = true := by
    refine h.imp fun hle hq => ?_
    simp only [decide_eq_true_eq] at hq ⊢
    omega
  have hbelow : below t permits = permits.filter fun p => !decide (t ≤ p.valuation) := by
    refine List.filter_congr fun p _ => ?_
    rw [← decide_not, decide_eq_decide]
    omega
  rw [hbelow]
  exact filter_append_filter_not hpass

theorem below_split {permits : List Permit} (h : Descending permits) {c : Priority} {s t : ℤ} (hst : s ≤ t)
    (hc : ∀ v, c.covers v = decide (s ≤ v ∧ v < t)) : bucket c permits ++ below s permits = below t permits := by
  have hdescending : Descending (below t permits) := h.sublist List.filter_sublist
  have hbucket : bucket c permits = (below t permits).filter fun p => s ≤ p.valuation := by
    rw [bucket, below, List.filter_filter]
    refine List.filter_congr fun p _ => ?_
    rw [hc, Bool.decide_and]
  have hbelow : below s permits = below s (below t permits) := by
    rw [below, below, below, List.filter_filter]
    refine List.filter_congr fun p _ => ?_
    rw [← Bool.decide_and, decide_eq_decide]
    omega
  rw [hbucket, hbelow]
  exact split_at hdescending s

/-- Sorted permits come bucket by bucket. -/
theorem buckets_append {permits : List Permit} (h : Descending permits) :
    bucket .critical permits ++ bucket .high permits ++ bucket .medium permits ++ bucket .low permits =
      permits := by
  calc
    _ = bucket .critical permits ++ (bucket .high permits ++
        (bucket .medium permits ++ below mediumThreshold permits)) := by
      simp only [List.append_assoc]
      rfl
    _ = bucket .critical permits ++ (bucket .high permits ++ below highThreshold permits) := by
      rw [below_split h (c := .medium) (by decide) fun v => rfl]
    _ = bucket .critical permits ++ below criticalThreshold permits := by
      rw [below_split h (c := .high) (by decide) fun v => rfl]
    _ = permits := split_at h criticalThreshold

theorem take_descending {permits : List Permit} (h : Descending permits) (k : ℕ) :
    ∀ p ∈ permits.take k, ∀ q ∈ permits.drop k, q.valuation ≤ p.valuation := by
  rw [Descending, ← List.take_append_drop k permits, List.pairwise_append] at h
  exact h.2.2

theorem fetchAllPermits_descending (names : List String) (generate : String → List Permit) :
    Descending (fetchAllPermits names generate).permits := sortDescending_sorted ..

/-- The line of the `i`-th permit in the daily summary. -/
def topLine (p : Permit) (i : ℕ) : String :=
  s!"  {i}. `{p.permitId}` | {p.municipality} | {p.permitType} | {Notices.formatValuation p.valuation}\n"

/-- The tops of the lists that the summary and the digest show. -/
structure Topmost (data : Raw) : Prop where
  concatenated : (processPermits data).critical ++ (processPermits data).high ++
    (processPermits data).medium ++ (processPermits data).low = (processPermits data).all
  most_valuable : ∀ k, ∀ p ∈ (processPermits data).all.take k, ∀ q ∈ (processPermits data).all.drop k,
    q.valuation ≤ p.valuation
  critical_first : (processPermits data).critical =
    (processPermits data).all.take (processPermits data).critical.length
  summary : ∀ slack time, (runScript slack time (sendDailySummaryNotification (processPermits data) data)).2.messages =
    [((Message.dailySummary time data.totalPermits data.totalValuation data.activeMunicipalities
      (processPermits data).critical.length (processPermits data).high.length
      (processPermits data).strategic.length ((processPermits data).all.take 5)).text, (slack 0).reply.1)]
  top : ∀ time, ∃ front closing, (dailyMessage (processPermits data) data time).text =
    front ++ String.join ((((processPermits data).all.take 5).zipIdx 1).map fun (p, i) => topLine p i) ++ closing
  digest : ∀ tables, generateMarkdown (processedFile data (processPermits data)) data = .ok tables →
    tables.criticalRows = (processPermits data).all.take (min 30 (processPermits data).critical.length) ∧
    tables.register.map Prod.snd = data.permits

theorem topmost {data : Raw} (h : Descending data.permits) : Topmost data := by
  have hall : (processPermits data).all = data.permits.map Permit.classified := by rw [processPermits_eq]
  have hdescending : Descending (processPermits data).all := by
    rw [hall]
    exact List.pairwise_map.mpr h
  have hconcat : (processPermits data).critical ++ (processPermits data).high ++
      (processPermits data).medium ++ (processPermits data).low = (processPermits data).all := by
    rw [processPermits_eq]
    dsimp only
    rw [← List.map_append, ← List.map_append, ← List.map_append, buckets_append h]
  have hcritical : (processPermits data).critical =
      (processPermits data).all.take (processPermits data).critical.length := by
    rw [← hconcat, List.append_assoc, List.append_assoc, List.take_left]
  refine ⟨hconcat, take_descending hdescending, hcritical, fun _ _ => rfl,
    fun time => ⟨_, _, String.append_assoc ..⟩, ?_⟩
  intro tables htables
  obtain ⟨-, -, hrows, hregister⟩ := generateMarkdown_ok htables
  constructor
  · have hrows : tables.criticalRows = (processPermits data).critical.take 30 := hrows
    rw [hrows, hcritical, List.take_take, ← hcritical]
  · rw [hregister, List.map_map]
    exact List.zipIdx_map_fst ..

/-- The buckets partition every list, and split a list that `fetch_all_permits` has sorted. -/
theorem buckets_partition (data : Raw) : Partitioned data.permits (processPermits data) ∧
    (Descending data.permits → Topmost data) ∧
    ∀ names generate, Descending (fetchAllPermits names generate).permits :=
  ⟨processPermits_partitioned data, topmost, fetchAllPermits_descending⟩

end NoblePort.Priorities
