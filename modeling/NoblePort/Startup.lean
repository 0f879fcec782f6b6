import NoblePort.Pool
import NoblePort.Store

/-!
# The database singleton

`get_database` of `app/db/connection.py`, run by any number of tasks that
nothing but their awaits interleaves. The singleton is assigned before the
connection is opened and the schema is created, so a call that comes in between
is handed what is there, and a failure in between leaves it there.
-/
namespace NoblePort.Startup

open Coroutine Coroutine.Pool NoblePort.Values NoblePort.Store

variable {ι : Type} [DecidableEq ι]

/-- A statement of the schema, by what it creates. -/
inductive Ddl where
  | table (name : String)
  | index (name table column : String)
  deriving DecidableEq, Repr

/-- What the schemas of both dialects create, in order. -/
def objects : List Ddl :=
  [.table "audit_log", .index "idx_audit_log_thread" "audit_log" "thread_id",
    .index "idx_audit_log_created" "audit_log" "created_at", .table "agent_metrics",
    .index "idx_agent_metrics_thread" "agent_metrics" "thread_id",
    .index "idx_agent_metrics_name" "agent_metrics" "metric_name", .table "langgraph_checkpoints",
    .index "idx_lgc_thread" "langgraph_checkpoints" "thread_id", .table "agent_thread_state"]

def sqliteSchema : List Ddl := objects

def postgresSchema : List Ddl := objects

def schema : Dialect → List Ddl
  | .sqlite => sqliteSchema
  | .postgres => postgresSchema

/-- A `Database`: whether it holds a connection or a pool, and the statements
of its migration that are done. -/
structure Database where
  dialect : Dialect
  connected : Bool := false
  applied : List Ddl := []
  deriving DecidableEq, Repr

/-- Open, with its migration completed. -/
def Database.usable (d : Database) : Bool :=
  d.connected && (schema d.dialect).all fun st => decide (st ∈ d.applied)

/-- What `connect` and `migrate` await on one `Database`; the last two take the
statement that is done with them, if there is one. -/
inductive Await where
  | connect | pragma | createPool | acquire
  | execute (stmt : Ddl)
  | commit (stmt : Option Ddl)
  | release (stmt : Option Ddl)
  deriving DecidableEq, Repr

/-- Its answer is assigned to an attribute of the `Database`, which stays as it is without one. -/
def Await.opens : Await → Bool
  | .connect | .createPool => true
  | _ => false

def Await.effect : Await → Database → Database
  | .connect, d | .createPool, d => { d with connected := true }
  | .commit (some st), d | .release (some st), d => { d with applied := d.applied ++ [st] }
  | _, d => d

/-- `enter` is `get_database` up to its first await: the test of `_db`, and the
assignment of a new `Database`. -/
inductive Op where
  | enter
  | on (id : Nat) (a : Await)

inductive Entered where
  | existing (id : Nat)
  | created (id : Nat) (dialect : Dialect)
  deriving DecidableEq, Repr

@[reducible] def Op.Resp : Op → Type
  | .enter => Entered
  | .on _ _ => Unit

abbrev Start := Prog Op Op.Resp Exc

namespace Database

/-- `Database.__init__`; the repr of a string is left to `reprOf`. -/
def init (reprOf : String → String) (url : String) : Except Exc Dialect :=
  if "sqlite".toList.isPrefixOf url.toList then .ok .sqlite
  else if "postgres".toList.isPrefixOf url.toList || "postgresql".toList.isPrefixOf url.toList then
    .ok .postgres
  else .error (.exception .valueError s!"Unsupported DATABASE_URL: {reprOf url}")

def on (id : Nat) (a : Await) : Start Unit := Prog.call (Op.on id a)

def connect (id : Nat) : Dialect → Start Unit
  | .sqlite => do
    on id .connect
    on id .pragma
    on id (.commit none)
  | .postgres => on id .createPool

/-- The lock of the SQLite branch is free: no other task migrates this `Database`. -/
def execute (id : Nat) (dialect : Dialect) (stmt : Ddl) : Start Unit :=
  match dialect with
  | .sqlite => do
    on id (.execute stmt)
    on id (.commit (some stmt))
  | .postgres => do
    on id .acquire
    match ← (on id (.execute stmt)).attempt with
    | .ok () => on id (.release (some stmt))
    | .error e =>
      on id (.release none)
      .raise e

def migrate (id : Nat) (dialect : Dialect) : Start Unit := (schema dialect).forM (execute id dialect)

end Database

/-- Only `enter` assigns `_db`, and only where it is None, so what is read of it
later is what `enter` left. -/
def getDatabase : Start Nat := do
  match ← Prog.call Op.enter with
  | .existing id => return id
  | .created id dialect =>
    Database.connect id dialect
    Database.migrate id dialect
    return id

/-- The configured URL, all `Database` objects there are, and `_db`. -/
structure World where
  url : String
  heap : List Database := []
  db : Option Nat := none
  deriving DecidableEq, Repr

def World.usable (w : World) (id : Nat) : Bool := w.heap[id]?.any Database.usable

def World.connected (w : World) (id : Nat) : Bool := w.heap[id]?.any Database.connected

/-- What fails at one await, and whether what it did stays done; at `enter`,
what `get_settings` raises. -/
structure Chance where
  fault : Option Exc := none
  landed : Bool := false
  deriving DecidableEq, Repr

section Runs

variable (reprOf : String → String)

/-- An attribute that is still None fails the assertion before the await. -/
def answer (c : Chance) (w : World) : (op : Op) → Except Exc op.Resp × Bool
  | .enter =>
    match w.db, c.fault, Database.init reprOf w.url with
    | some id, _, _ => (.ok (.existing id), true)
    | none, some e, _ => (.error e, false)
    | none, none, .error e => (.error e, false)
    | none, none, .ok dialect => (.ok (.created w.heap.length dialect), true)
  | .on id a =>
    if a.opens || w.connected id then
      match c.fault with
      | some e => (.error e, c.landed && !a.opens)
      | none => (.ok (), true)
    else (.error (.exception (.other "AssertionError") ""), false)

def effect (w : World) : Op → World
  | .enter =>
    match w.db, Database.init reprOf w.url with
    | none, .ok dialect => { w with heap := w.heap ++ [{ dialect }], db := some w.heap.length }
    | _, _ => w
  | .on id a => { w with heap := w.heap.modify id a.effect }

def interp : Interp Op Op.Resp Exc World Chance := ⟨answer reprOf, effect reprOf⟩

end Runs

abbrev Calls (ι : Type) := Pool ι Op Op.Resp Exc Nat World

/-- Every task is a call of `get_database`; there is no `Database` yet. -/
def start (url : String) : Calls ι := ⟨{ url }, fun _ => getDatabase, []⟩

/-- The singleton, where there is one, is ready to be handed out. -/
def World.ready (w : World) : Bool := w.db.all w.usable

/-- No call comes while the singleton is there but not ready, and no await of
`connect` or `migrate` fails. -/
def Allowed (w : World) (c : Chance) : Op → Prop
  | .enter => w.ready = true
  | .on _ _ => c.fault = none

def Careful (s : Calls ι) (i : ι) (c : Chance) : Prop :=
  ∀ op ∈ (s.task i).awaits, Allowed s.world c op

/-- The `Database` a call returned, if it returned one. -/
def given (s : Calls ι) (i : ι) : Option Nat :=
  match s.task i with
  | .ret id => some id
  | _ => none

def raised (s : Calls ι) (i : ι) : Bool :=
  match s.task i with
  | .raise _ => true
  | _ => false

/-- What a call has learnt: the singleton it was given, or its own `Database`
as its awaits have left it. -/
inductive Seen where
  | start
  | existing (id : Nat)
  | created (id : Nat) (d : Database)
  deriving DecidableEq

def Seen.observe : Seen → Entry Op Op.Resp Exc → Seen
  | .start, ⟨.enter, .ok (.existing id), _⟩ => .existing id
  | .start, ⟨.enter, .ok (.created id dialect), _⟩ => .created id { dialect }
  | .created id d, ⟨.on _ a, .ok _, _⟩ => .created id (a.effect d)
  | s, _ => s

/-- Where no await on its `Database` fails, a call awaits only on the one it
created, and not before that is open. -/
def startup : Contract Op Op.Resp Exc Seen where
  observe := Seen.observe
  rely _ e := e.op ≠ .enter → e.failed = false ∧ e.landed = true
  guarantee s
    | .enter => s = .start
    | .on id a => ∃ d, s = .created id d ∧ (a.opens || d.connected) = true

namespace startup

variable {id : Nat} {d : Database}

/-- The program returns, with the `Database` as `d`. -/
def Leaves (id : Nat) (d : Database) (s : Seen) (r : Except Exc Unit) : Prop :=
  r = .ok () ∧ s = .created id d

theorem wp_on {a : Await} {Q : Seen → Except Exc Unit → Prop} (ha : (a.opens || d.connected) = true)
    (hQ : Q (.created id (a.effect d)) (.ok ())) : startup.wp (Database.on id a) Q (.created id d) := by
  unfold Database.on
  rw [Contract.wp_call]
  refine ⟨⟨d, rfl, ha⟩, ?_⟩
  intro r landed hr
  cases r with
  | ok u => exact hQ
  | error e => exact absurd (hr nofun).1 nofun

theorem wp_on_then {a : Await} {f : Unit → Start Unit} {Q : Seen → Except Exc Unit → Prop}
    (ha : (a.opens || d.connected) = true) (hf : startup.wp (f ()) Q (.created id (a.effect d))) :
    startup.wp (Database.on id a >>= f) Q (.created id d) := by
  rw [Contract.wp_bind]
  exact wp_on ha hf

theorem wp_connect (dialect : Dialect) :
    startup.wp (Database.connect id dialect) (Leaves id { d with connected := true }) (.created id d) := by
  cases dialect with
  | sqlite => exact wp_on_then rfl (wp_on_then (a := .pragma) rfl (wp_on rfl ⟨rfl, rfl⟩))
  | postgres => exact wp_on rfl ⟨rfl, rfl⟩

theorem wp_execute (dialect : Dialect) (stmt : Ddl) (hd : d.connected = true) :
    startup.wp (Database.execute id dialect stmt)
      (Leaves id { d with applied := d.applied ++ [stmt] }) (.created id d) := by
  cases dialect with
  | sqlite => exact wp_on_then (a := .execute stmt) hd (wp_on hd ⟨rfl, rfl⟩)
  | postgres =>
    refine wp_on_then (a := .acquire) hd ?_
    rw [Contract.wp_bind, Contract.wp_attempt]
    exact wp_on (a := .execute stmt) hd (wp_on (a := .release (some stmt)) hd ⟨rfl, rfl⟩)

theorem wp_migrateAll (dialect : Dialect) (stmts : List Ddl) (hd : d.connected = true) :
    startup.wp (stmts.forM (Database.execute id dialect))
      (Leaves id { d with applied := d.applied ++ stmts }) (.created id d) := by
  induction stmts generalizing d with
  | nil => exact ⟨rfl, by rw [List.append_nil]⟩
  | cons stmt stmts ih =>
    refine startup.wp_seq _ _ _ (wp_execute dialect stmt hd) ?_ ?_
    · rintro s u ⟨_, rfl⟩
      have hrest := ih (d := { d with applied := d.applied ++ [stmt] }) hd
      rwa [List.append_assoc] at hrest
    · rintro s e ⟨he, _⟩
      cases he

/-- How a call ends: with the singleton it was given, with its own `Database`
made usable, or in `enter`. -/
def Ended : Seen → Except Exc Nat → Prop
  | .existing id, .ok id' => id' = id
  | .created id d, .ok id' => id' = id ∧ d.usable = true
  | .start, .error _ => True
  | _, _ => False

theorem usable_migrated (d : Database) :
    Database.usable { d with connected := true, applied := d.applied ++ schema d.dialect } = true := by
  simp only [Database.usable, Bool.true_and, List.all_eq_true, decide_eq_true_eq]
  intro st hst
  exact List.mem_append_right _ hst

theorem wp_getDatabase : startup.wp getDatabase Ended .start := by
  unfold getDatabase
  rw [Contract.wp_bind, Contract.wp_call]
  refine ⟨rfl, ?_⟩
  intro r landed _
  match r with
  | .error e => trivial
  | .ok (.existing id) => exact rfl
  | .ok (.created id dialect) =>
    refine startup.wp_seq _ _ _ (wp_connect dialect) ?_ ?_
    · rintro s u ⟨_, rfl⟩
      refine startup.wp_seq _ _ _ (wp_migrateAll dialect (schema dialect) rfl) ?_ ?_
      · rintro s u ⟨_, rfl⟩
        exact ⟨rfl, usable_migrated { dialect }⟩
      · rintro s e ⟨he, _⟩
        cases he
    · rintro s e ⟨he, _⟩
      cases he

end startup

theorem usable_effect {d : Database} (a : Await) (h : d.usable = true) : (a.effect d).usable = true := by
  have hgrow (st : Ddl) : Database.usable { d with applied := d.applied ++ [st] } = true := by
    simp only [Database.usable, Bool.and_eq_true, List.all_eq_true, decide_eq_true_eq] at h ⊢
    exact ⟨h.1, fun st' hst => List.mem_append_left _ (h.2 st' hst)⟩
  have hopen : Database.usable { d with connected := true } = true := by
    simp only [Database.usable, Bool.and_eq_true] at h ⊢
    exact ⟨trivial, h.2⟩
  match a with
  | .connect | .createPool => exact hopen
  | .commit (some st) | .release (some st) => exact hgrow st
  | .pragma | .acquire | .execute _ | .commit none | .release none => exact h

def seen (s : Calls ι) (i : ι) : Seen := startup.after .start (s.traceOf i)

section Step

variable {reprOf : String → String} {url : String} {s s' : Calls ι} {i j : ι}
  {e : Entry Op Op.Resp Exc}

theorem seen_same (h : s'.log = s.log ++ [(i, e)]) : seen s' i = (seen s i).observe e := by
  rw [seen, Pool.traceOf_step_same h, Contract.after_append]
  rfl

theorem seen_other (h : s'.log = s.log ++ [(i, e)]) (hij : i ≠ j) : seen s' j = seen s j := by
  rw [seen, Pool.traceOf_step_other h hij, seen]

/-- What the calls have learnt is so, and one of them at most has created a `Database`. -/
structure Consistent (s : Calls ι) : Prop where
  relied : ∀ i, startup.Relied .start (s.traceOf i)
  created : ∀ i id d, seen s i = .created id d → s.world.db = some id ∧ s.world.heap[id]? = some d
  existing : ∀ i id, seen s i = .existing id → s.world.db = some id ∧ s.world.usable id = true
  creator : ∀ i j id id' d d', seen s i = .created id d → seen s j = .created id' d' → i = j

theorem consistent_start : Consistent (start (ι := ι) url) :=
  ⟨fun _ => trivial, nofun, nofun, nofun⟩

theorem usable_iff {w : World} {id : Nat} :
    w.usable id = true ↔ ∃ d, w.heap[id]? = some d ∧ d.usable = true := by
  unfold World.usable
  cases w.heap[id]? <;> simp

theorem usable_mono {w : World} {id : Nat} (a : Await) (k : Nat) (h : w.usable id = true) :
    World.usable { w with heap := w.heap.modify k a.effect } id = true := by
  obtain ⟨d, hd, hu⟩ := usable_iff.mp h
  rw [usable_iff, List.getElem?_modify, hd]
  by_cases hk : k = id
  · exact ⟨a.effect d, by simp [hk], usable_effect a hu⟩
  · exact ⟨d, by simp [hk], hu⟩

theorem answer_on (reprOf : String → String) {c : Chance} {w : World} {id : Nat} {d : Database}
    {a : Await} (hc : c.fault = none) (hd : w.heap[id]? = some d) (ha : (a.opens || d.connected) = true) :
    answer reprOf c w (.on id a) = (.ok (), true) := by
  have hconnected : (a.opens || w.connected id) = true := by simpa [World.connected, hd] using ha
  simp [answer, hconnected, hc]

theorem relied_step (h : Consistent s) (hlog : s'.log = s.log ++ [(i, e)])
    (he : startup.rely (seen s i) e) (j : ι) : startup.Relied .start (s'.traceOf j) := by
  by_cases hij : i = j
  · subst hij
    rw [Pool.traceOf_step_same hlog, Contract.relied_append]
    exact ⟨h.relied i, he, trivial⟩
  · rw [Pool.traceOf_step_other hlog hij]
    exact h.relied j

/-- One await on the `Database` this call created. -/
theorem Consistent.await {id : Nat} {d : Database} {a : Await} (h : Consistent s)
    (hseen : seen s i = .created id d)
    (hworld : s'.world = { s.world with heap := s.world.heap.modify id a.effect })
    (hlog : s'.log = s.log ++ [(i, ⟨.on id a, .ok (), true⟩)]) : Consistent s' := by
  obtain ⟨hdb, hheap⟩ := h.created i id d hseen
  have hsame : seen s' i = .created id (a.effect d) := by
    rw [seen_same hlog, hseen]
    rfl
  have hother {j : ι} (hij : i ≠ j) : seen s' j = seen s j := seen_other hlog hij
  have hsole {j : ι} {id' : Nat} {d' : Database} (hj : seen s' j = .created id' d') : i = j := by
    by_contra hij
    rw [hother hij] at hj
    exact hij (h.creator i j _ _ _ _ hseen hj)
  constructor
  case relied => exact relied_step h hlog fun _ => ⟨rfl, rfl⟩
  case created =>
    intro j id' d' hj
    cases hsole hj
    rw [hsame] at hj
    cases hj
    rw [hworld, List.getElem?_modify_eq, hheap]
    exact ⟨hdb, rfl⟩
  case existing =>
    intro j id' hj
    have hij : i ≠ j := by
      rintro rfl
      rw [hsame] at hj
      cases hj
    rw [hother hij] at hj
    rw [hworld]
    exact ⟨(h.existing j id' hj).1, usable_mono a id (h.existing j id' hj).2⟩
  case creator =>
    intro j k _ _ _ _ hj hk
    exact (hsole hj).symm.trans (hsole hk)

/-- A call that was given the singleton, or whose `enter` raised. -/
theorem Consistent.enter {r : Except Exc Entered} {landed : Bool} (h : Consistent s)
    (hseen : seen s i = .start) (hworld : s'.world = s.world)
    (hlog : s'.log = s.log ++ [(i, ⟨.enter, r, landed⟩)])
    (hr : ∀ en, r = .ok en → ∃ id, en = .existing id ∧ s.world.db = some id ∧ s.world.usable id = true) :
    Consistent s' := by
  have hother {j : ι} (hij : i ≠ j) : seen s' j = seen s j := seen_other hlog hij
  have hsame : ∀ id d, seen s' i ≠ .created id d := by
    intro id d
    rw [seen_same hlog, hseen]
    match r with
    | .error e => nofun
    | .ok en =>
      obtain ⟨id', rfl, _⟩ := hr en rfl
      nofun
  have hold {j : ι} {id : Nat} {d : Database} (hj : seen s' j = .created id d) :
      seen s j = .created id d := by
    have hij : i ≠ j := by
      rintro rfl
      exact hsame id d hj
    rwa [hother hij] at hj
  constructor
  case relied => exact relied_step h hlog fun hop => absurd rfl hop
  case created =>
    intro j id d hj
    rw [hworld]
    exact h.created j id d (hold hj)
  case existing =>
    intro j id hj
    rw [hworld]
    by_cases hij : i = j
    · subst hij
      rw [seen_same hlog, hseen] at hj
      match r with
      | .error e => cases hj
      | .ok en =>
        obtain ⟨id', rfl, hdb, husable⟩ := hr en rfl
        cases hj
        exact ⟨hdb, husable⟩
    · rw [hother hij] at hj
      exact h.existing j id hj
  case creator =>
    intro j k _ _ _ _ hj hk
    exact h.creator j k _ _ _ _ (hold hj) (hold hk)

/-- A call that found no singleton and assigned one. -/
theorem Consistent.create {dialect : Dialect} (h : Consistent s) (hdb : s.world.db = none)
    (hseen : seen s i = .start)
    (hworld : s'.world =
      { s.world with heap := s.world.heap ++ [{ dialect }], db := some s.world.heap.length })
    (hlog : s'.log = s.log ++ [(i, ⟨.enter, .ok (.created s.world.heap.length dialect), true⟩)]) :
    Consistent s' := by
  have hsame : seen s' i = .created s.world.heap.length { dialect } := by
    rw [seen_same hlog, hseen]
    rfl
  have hnone : ∀ j id d, seen s j ≠ .created id d := by
    intro j id d hj
    have hsome := (h.created j id d hj).1
    rw [hdb] at hsome
    cases hsome
  have hsole {j : ι} {id : Nat} {d : Database} (hj : seen s' j = .created id d) : i = j := by
    by_contra hij
    rw [seen_other hlog hij] at hj
    exact hnone j id d hj
  constructor
  case relied => exact relied_step h hlog fun hop => absurd rfl hop
  case created =>
    intro j id d hj
    cases hsole hj
    rw [hsame] at hj
    cases hj
    rw [hworld]
    exact ⟨rfl, List.getElem?_concat_length⟩
  case existing =>
    intro j id hj
    have hij : i ≠ j := by
      rintro rfl
      rw [hsame] at hj
      cases hj
    rw [seen_other hlog hij] at hj
    have hsome := (h.existing j id hj).1
    rw [hdb] at hsome
    cases hsome
  case creator =>
    intro j k _ _ _ _ hj hk
    exact (hsole hj).symm.trans (hsole hk)

theorem awaited (h : Reach (interp reprOf) Careful (start (ι := ι) url) s) (hs : Consistent s)
    {op : Op} (hop : (s.task i).awaits = some op) : startup.guarantee (seen s i) op :=
  h.guarantee_awaits rfl startup.wp_getDatabase (hs.relied i) hop

theorem usable_of_ready {w : World} {id : Nat} (h : w.ready = true) (hdb : w.db = some id) :
    w.usable id = true := by
  unfold World.ready at h
  rw [hdb] at h
  exact h

/-- Everything a careful step does. -/
theorem careful_cases (h : Reach (interp reprOf) Careful (start (ι := ι) url) s) (hs : Consistent s)
    {c : Chance} (hc : Careful s i c) (hstep : s.step (interp reprOf) i c = some s') :
    (∃ id d a, seen s i = .created id d ∧
      s'.world = { s.world with heap := s.world.heap.modify id a.effect } ∧
      s'.log = s.log ++ [(i, ⟨.on id a, .ok (), true⟩)]) ∨
    (∃ id, seen s i = .start ∧ s.world.db = some id ∧ s.world.usable id = true ∧ s'.world = s.world ∧
      s'.log = s.log ++ [(i, ⟨.enter, .ok (.existing id), true⟩)]) ∨
    (∃ e, seen s i = .start ∧ s.world.db = none ∧ s'.world = s.world ∧
      s'.log = s.log ++ [(i, ⟨.enter, .error e, false⟩)]) ∨
    ∃ dialect, seen s i = .start ∧ s.world.db = none ∧
      s'.world =
        { s.world with heap := s.world.heap ++ [{ dialect }], db := some s.world.heap.length } ∧
      s'.log = s.log ++ [(i, ⟨.enter, .ok (.created s.world.heap.length dialect), true⟩)] := by
  obtain ⟨op, k, ht, hworld, _, hlog⟩ := step_cases (interp reprOf) hstep
  have hop := Pool.awaits_of_task ht
  have hg := awaited h hs hop
  have hallowed : Allowed s.world c op := hc op hop
  cases op with
  | on id a =>
    obtain ⟨d, hseen, ha⟩ := hg
    have hanswer := answer_on reprOf hallowed (hs.created i id d hseen).2 ha
    simp only [Interp.entry, interp, hanswer] at hlog hworld
    exact .inl ⟨id, d, a, hseen, hworld, hlog⟩
  | enter =>
    right
    simp only [Interp.entry, Interp.settle, interp, answer, effect] at hlog hworld
    cases hdb : s.world.db with
    | some id =>
      simp only [hdb] at hlog hworld
      exact .inl ⟨id, hg, rfl, usable_of_ready hallowed hdb, hworld, hlog⟩
    | none =>
      right
      cases hf : c.fault with
      | some e =>
        simp only [hdb, hf] at hlog hworld
        exact .inl ⟨e, hg, rfl, hworld, hlog⟩
      | none =>
        cases hi : Database.init reprOf s.world.url with
        | error e =>
          simp only [hdb, hf, hi] at hlog hworld
          exact .inl ⟨e, hg, rfl, hworld, hlog⟩
        | ok dialect =>
          simp only [hdb, hf, hi] at hlog hworld
          exact .inr ⟨dialect, hg, rfl, hworld, hlog⟩

theorem consistent_step (h : Reach (interp reprOf) Careful (start (ι := ι) url) s) (hs : Consistent s)
    {c : Chance} (hc : Careful s i c) (hstep : s.step (interp reprOf) i c = some s') : Consistent s' := by
  rcases careful_cases h hs hc hstep with ⟨id, d, a, hseen, hworld, hlog⟩ |
    ⟨id, hseen, hdb, husable, hworld, hlog⟩ | ⟨e, hseen, hdb, hworld, hlog⟩ |
    ⟨dialect, hseen, hdb, hworld, hlog⟩
  · exact hs.await hseen hworld hlog
  · refine hs.enter hseen hworld hlog ?_
    rintro en ⟨⟩
    exact ⟨id, rfl, hdb, husable⟩
  · exact hs.enter hseen hworld hlog nofun
  · exact hs.create hdb hseen hworld hlog

theorem consistent (h : Reach (interp reprOf) Careful (start (ι := ι) url) s) : Consistent s := by
  induction h with
  | start => exact consistent_start
  | step hr hc hstep ih => exact consistent_step hr ih hc hstep

theorem ended (h : Reach (interp reprOf) Careful (start (ι := ι) url) s) (i : ι) :
    startup.wp (s.task i) startup.Ended (seen s i) :=
  h.wp_task rfl startup.wp_getDatabase ((consistent h).relied i)

/-- A call that returned holds the singleton, and that is usable. -/
theorem given_usable (h : Reach (interp reprOf) Careful (start (ι := ι) url) s) {id : Nat}
    (hgiven : given s i = some id) : s.world.db = some id ∧ s.world.usable id = true := by
  have hret : s.task i = .ret id := by
    unfold given at hgiven
    cases ht : s.task i <;> simp_all
  have hend := ended h i
  rw [hret, Contract.wp_ret] at hend
  cases hseen : seen s i with
  | start =>
    rw [hseen] at hend
    exact hend.elim
  | existing id' =>
    rw [hseen] at hend
    cases hend
    exact (consistent h).existing i id hseen
  | created id' d =>
    rw [hseen] at hend
    obtain ⟨rfl, husable⟩ := hend
    obtain ⟨hdb, hheap⟩ := (consistent h).created i id d hseen
    exact ⟨hdb, usable_iff.mpr ⟨d, hheap, husable⟩⟩

/-- A call that raises has got no further than `enter`, and found no singleton. -/
theorem raised_unset (h : Reach (interp reprOf) Careful (start (ι := ι) url) s) {c : Chance}
    (hc : Careful s i c) (hstep : s.step (interp reprOf) i c = some s') (hraised : raised s' i = true) :
    s'.world.db = none := by
  obtain ⟨e, hraise⟩ : ∃ e, s'.task i = .raise e := by
    unfold raised at hraised
    cases ht : s'.task i <;> simp_all
  have hend := ended (h.step hc hstep) i
  rw [hraise, Contract.wp_raise] at hend
  rcases careful_cases h (consistent h) hc hstep with ⟨id, d, a, hseen, hworld, hlog⟩ |
    ⟨id, hseen, hdb, husable, hworld, hlog⟩ | ⟨e, hseen, hdb, hworld, hlog⟩ |
    ⟨dialect, hseen, hdb, hworld, hlog⟩
  case inr.inr.inl => rw [hworld, hdb]
  all_goals
    rw [seen_same hlog, hseen] at hend
    exact hend.elim

end Step

/-- In every run of any number of calls of `get_database` in which no await of
`connect` or `migrate` fails and no call comes while the singleton is there but
not ready: what any call returned is usable from then on, all calls returned
the same `Database`, and a call that raises leaves no singleton. -/
theorem singleton_usable (reprOf : String → String) (url : String) (s : Calls ι)
    (h : Reach (interp reprOf) Careful (start url) s) :
    (∀ i id, given s i = some id → s.world.usable id = true) ∧
    (∀ i j id id', given s i = some id → given s j = some id' → id = id') ∧
    ∀ i c s', Careful s i c → s.step (interp reprOf) i c = some s' → raised s' i = true →
      s'.world.db = none := by
  refine ⟨fun i id hi => (given_usable h hi).2, ?_, fun i c s' hc => raised_unset h hc⟩
  intro i j id id' hi hj
  have hdb := (given_usable h hi).1
  rw [(given_usable h hj).1] at hdb
  cases hdb
  rfl

instance (w : World) (c : Chance) : (op : Op) → Decidable (Allowed w c op)
  | .enter => inferInstanceAs (Decidable (_ = true))
  | .on _ _ => inferInstanceAs (Decidable (_ = none))

instance (s : Calls ι) (i : ι) (c : Chance) : Decidable (Careful s i c) :=
  inferInstanceAs (Decidable (∀ _ ∈ _, _))

/-- One call does all the work, and another then gets the same `Database`. -/
theorem singleton_usable_sequential :
    ∃ s : Calls Bool, Reach (interp id) Careful (start "sqlite:///a.db") s ∧
      given s false = some 0 ∧ given s true = some 0 ∧ s.world.usable 0 = true := by
  obtain ⟨s, h, hfalse, htrue⟩ := Reach.exists_of_exec (interp id) Careful (start "sqlite:///a.db")
    (P := fun s => given s false = some 0 ∧ given s true = some 0)
    ((List.replicate 22 false ++ [true]).map fun i => (i, ({} : Chance))) (by decide)
  have husable := (singleton_usable id "sqlite:///a.db" s h).1 true 0 htrue
  exact ⟨s, h, hfalse, htrue, husable⟩

/-- A call in the gap returns a `Database` that is not open, with nothing
failing; and a `connect` that fails leaves one behind, which the next call returns. -/
theorem unusable_handed_out :
    (∃ s : Calls Bool, Reach (interp id) (fun _ _ c => c.fault = none) (start "sqlite:///a.db") s ∧
      given s true = some 0 ∧ s.world.usable 0 = false) ∧
    ∃ s : Calls Bool, Reach (interp id) (fun _ _ _ => True) (start "sqlite:///a.db") s ∧
      raised s false = true ∧ s.world.db = some 0 ∧ given s true = some 0 ∧ s.world.usable 0 = false := by
  constructor
  · exact Reach.exists_of_exec _ _ _ [(false, ({} : Chance)), (true, {})] (by decide)
  · exact Reach.exists_of_exec _ _ _
      [(false, ({} : Chance)), (false, { fault := some .cancelled }), (true, {})] (by decide)

end NoblePort.Startup
