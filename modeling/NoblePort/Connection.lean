import Mathlib.Data.List.Induction
import NoblePort.Store

/-!
# The SQLite connection

The SQLite half of `Database` in `app/db/connection.py`, over a connection of
`aiosqlite`. All calls share the connection and its implicit transaction: what
a statement changes is there for every later call, and stays for good with the
next commit, whoever runs it. A `Database` call holds the lock from its first
await to its last, so a run is the list of its calls in lock order.
-/
namespace NoblePort.Connection

open Coroutine NoblePort.Values NoblePort.Store

variable {δ ρ ε : Type}

/-- What a statement makes of the contents, and the rows it returns. One that
raises has changed nothing, as SQLite undoes it (but for OR FAIL). -/
abbrev Sql (δ ρ ε : Type) := δ → Except ε (δ × List ρ)

/-- The calls `Database` awaits on its connection. -/
inductive ConnOp (δ ρ ε : Type) where
  | execute (sql : Sql δ ρ ε)
  | executemany (sqls : List (Sql δ ρ ε))
  | commit

@[reducible] def ConnOp.Resp : ConnOp δ ρ ε → Type
  | .execute _ => List ρ
  | .executemany _ => Unit
  | .commit => Unit

/-- What is committed, and what the connection sees: the same, but for the
changes of the open transaction. -/
structure Sqlite (δ : Type) where
  committed : δ
  working : δ
  deriving DecidableEq, Repr

/-- What fails in one call: the statement at a row, and the commit. -/
structure Faults (ε : Type) where
  statement : Nat → Option ε := fun _ => none
  commit : Option ε := none

def perform (fault : Option ε) (sql : Sql δ ρ ε) (w : δ) : Except ε (δ × List ρ) :=
  match fault with
  | some e => .error e
  | none => sql w

/-- Row after row from row `k` on. The rows before a failing one stay. -/
def performMany (fault : Nat → Option ε) : Nat → List (Sql δ ρ ε) → δ → Except ε Unit × δ
  | _, [], w => (.ok (), w)
  | k, sql :: sqls, w =>
    match perform (fault k) sql w with
    | .ok (w, _) => performMany fault (k + 1) sqls w
    | .error e => (.error e, w)

def answer (f : Faults ε) : (op : ConnOp δ ρ ε) → Sqlite δ → Except ε op.Resp × Sqlite δ
  | .execute sql, db =>
    match perform (f.statement 0) sql db.working with
    | .ok (w, rows) => (.ok rows, { db with working := w })
    | .error e => (.error e, db)
  | .executemany sqls, db =>
    ((performMany f.statement 0 sqls db.working).1,
      { db with working := (performMany f.statement 0 sqls db.working).2 })
  | .commit, db =>
    match f.commit with
    | none => (.ok (), { db with committed := db.working })
    | some e => (.error e, db)

namespace Database

abbrev Conn (δ ρ ε : Type) := Prog (ConnOp δ ρ ε) ConnOp.Resp ε

def execute (sql : Sql δ ρ ε) : Conn δ ρ ε Unit := do
  let _ ← Prog.call (ConnOp.execute sql)
  Prog.call ConnOp.commit

def executeMany (sqls : List (Sql δ ρ ε)) : Conn δ ρ ε Unit := do
  Prog.call (ConnOp.executemany sqls)
  Prog.call ConnOp.commit

def fetchOne (sql : Sql δ ρ ε) : Conn δ ρ ε (Option ρ) := do
  let rows ← Prog.call (ConnOp.execute sql)
  return List.head? rows

def fetchAll (sql : Sql δ ρ ε) : Conn δ ρ ε (List ρ) := Prog.call (ConnOp.execute sql)

end Database

inductive Call (δ ρ ε : Type) where
  | execute (sql : Sql δ ρ ε)
  | executeMany (sqls : List (Sql δ ρ ε))
  | fetchOne (sql : Sql δ ρ ε)
  | fetchAll (sql : Sql δ ρ ε)

/-- Each call, with the rows it returns. -/
def Call.program : Call δ ρ ε → Database.Conn δ ρ ε (List ρ)
  | .execute sql => do
    Database.execute sql
    return []
  | .executeMany sqls => do
    Database.executeMany sqls
    return []
  | .fetchOne sql => do
    let row ← Database.fetchOne sql
    return row.toList
  | .fetchAll sql => Database.fetchAll sql

/-- A call on the connection, with what fails in it. -/
def Call.serve (c : Call δ ρ ε) (f : Faults ε) (db : Sqlite δ) : Except ε (List ρ) × Sqlite δ :=
  c.program.run (answer f) db

/-- What a call does before its commit, if it has one. -/
def Call.work (c : Call δ ρ ε) (f : Faults ε) (w : δ) : Except ε (List ρ) × δ :=
  match c with
  | .execute sql =>
    match perform (f.statement 0) sql w with
    | .ok (w, _) => (.ok [], w)
    | .error e => (.error e, w)
  | .executeMany sqls =>
    ((performMany f.statement 0 sqls w).1.map fun _ => [], (performMany f.statement 0 sqls w).2)
  | .fetchOne sql =>
    match perform (f.statement 0) sql w with
    | .ok (w, rows) => (.ok rows.head?.toList, w)
    | .error e => (.error e, w)
  | .fetchAll sql =>
    match perform (f.statement 0) sql w with
    | .ok (w, rows) => (.ok rows, w)
    | .error e => (.error e, w)

def Call.commits : Call δ ρ ε → Bool
  | .execute _ | .executeMany _ => true
  | .fetchOne _ | .fetchAll _ => false

/-- A call works, and commits only after work that returned. -/
theorem serve_eq (c : Call δ ρ ε) (f : Faults ε) (db : Sqlite δ) :
    c.serve f db =
      match c.work f db.working with
      | (.error e, w) => (.error e, ⟨db.committed, w⟩)
      | (.ok rows, w) =>
        match c.commits, f.commit with
        | false, _ => (.ok rows, ⟨db.committed, w⟩)
        | true, none => (.ok rows, ⟨w, w⟩)
        | true, some e => (.error e, ⟨db.committed, w⟩) := by
  cases c with
  | execute sql =>
    simp only [Call.serve, Call.program, Database.execute, Prog.run_bind, Prog.run_call, answer, Call.work]
    cases perform (f.statement 0) sql db.working with
    | error e => rfl
    | ok r => cases f.commit <;> simp [Call.commits]
  | executeMany sqls =>
    simp only [Call.serve, Call.program, Database.executeMany, Prog.run_bind, Prog.run_call, answer,
      Call.work]
    cases (performMany f.statement 0 sqls db.working).1 with
    | error e => rfl
    | ok r => cases f.commit <;> simp [Call.commits, Except.map]
  | fetchOne sql =>
    simp only [Call.serve, Call.program, Database.fetchOne, Prog.run_bind, Prog.run_call, answer, Call.work]
    cases perform (f.statement 0) sql db.working <;> rfl
  | fetchAll sql =>
    simp only [Call.serve, Call.program, Database.fetchAll, Prog.run_call, answer, Call.work]
    cases perform (f.statement 0) sql db.working <;> rfl

/-- Nothing fails. -/
def quiet : Faults ε := {}

theorem perform_ok {fault : Option ε} {sql : Sql δ ρ ε} {w : δ} {r : δ × List ρ}
    (h : perform fault sql w = .ok r) : sql w = .ok r := by
  cases fault with
  | none => exact h
  | some e => cases h

theorem performMany_ok {fault : Nat → Option ε} {k : Nat} {sqls : List (Sql δ ρ ε)} {w : δ}
    (h : (performMany fault k sqls w).1 = .ok ()) :
    performMany (fun _ => none) k sqls w = performMany fault k sqls w := by
  induction sqls generalizing k w with
  | nil => rfl
  | cons sql sqls ih =>
    unfold performMany at h ⊢
    cases hp : perform (fault k) sql w with
    | error e =>
      rw [hp] at h
      cases h
    | ok r =>
      rw [hp] at h
      simp only [perform, perform_ok hp]
      exact ih h

/-- Work that returns is what it is with nothing failing. -/
theorem work_ok {c : Call δ ρ ε} {f : Faults ε} {w : δ} {rows : List ρ}
    (h : (c.work f w).1 = .ok rows) : c.work quiet w = c.work f w := by
  cases c with
  | executeMany sqls =>
    simp only [Call.work] at h ⊢
    cases hp : (performMany f.statement 0 sqls w).1 with
    | error e =>
      rw [hp] at h
      cases h
    | ok r => rw [show (quiet (ε := ε)).statement = fun _ => none from rfl, performMany_ok hp, hp]
  | _ sql =>
    simp only [Call.work] at h ⊢
    cases hp : perform (f.statement 0) sql w with
    | error e =>
      rw [hp] at h
      cases h
    | ok r => simp only [quiet, perform, perform_ok hp]

/-- The connection after the calls, and what each of them ended with. -/
def session (db : Sqlite δ) : List (Call δ ρ ε × Faults ε) →
    Sqlite δ × List (Call δ ρ ε × Except ε (List ρ))
  | [] => (db, [])
  | (c, f) :: calls =>
    ((session (c.serve f db).2 calls).1, (c, (c.serve f db).1) :: (session (c.serve f db).2 calls).2)

/-- The contents after the calls that returned, each one whole, and none of the others. -/
def ideal (w : δ) : List (Call δ ρ ε × Except ε (List ρ)) → δ
  | [] => w
  | (c, .ok _) :: ended => ideal (c.work quiet w).2 ended
  | (_, .error _) :: ended => ideal w ended

/-- The calls that returned gave the rows of those contents. -/
def Faithful (w : δ) : List (Call δ ρ ε × Except ε (List ρ)) → Prop
  | [] => True
  | (c, .ok rows) :: ended => (c.work quiet w).1 = .ok rows ∧ Faithful (c.work quiet w).2 ended
  | (_, .error _) :: ended => Faithful w ended

/-- Committed is exactly what returned, and nothing else was ever fetched. -/
def NoTrace (w : δ) (calls : List (Call δ ρ ε × Faults ε)) : Prop :=
  (session ⟨w, w⟩ calls).1.committed = ideal w (session ⟨w, w⟩ calls).2 ∧
    Faithful w (session ⟨w, w⟩ calls).2

/-- The call leaves nothing pending: its statements change nothing, or they
return and their commit does not fail. -/
def Tidy (c : Call δ ρ ε) (f : Faults ε) (w : δ) : Prop :=
  (c.work f w).2 = w ∨ (∃ rows, (c.work f w).1 = .ok rows) ∧ c.commits = true ∧ f.commit = none

def TidyRun (db : Sqlite δ) : List (Call δ ρ ε × Faults ε) → Prop
  | [] => True
  | (c, f) :: calls => Tidy c f db.working ∧ TidyRun (c.serve f db).2 calls

/-- What a tidy call does to a connection with nothing pending. -/
theorem serve_tidy {c : Call δ ρ ε} {f : Faults ε} {w : δ} (h : Tidy c f w) :
    match c.serve f ⟨w, w⟩ with
    | (.ok rows, db) => c.work quiet w = (.ok rows, db.working) ∧ db.committed = db.working
    | (.error _, db) => db = ⟨w, w⟩ := by
  rw [serve_eq]
  cases hw : c.work f w with
  | mk r w' =>
    unfold Tidy at h
    rw [hw] at h
    cases r with
    | error e =>
      rcases h with rfl | ⟨⟨rows, hrows⟩, _⟩
      · rfl
      · cases hrows
    | ok rows =>
      have hquiet : c.work quiet w = c.work f w := work_ok (congrArg Prod.fst hw)
      rw [hw] at hquiet
      cases hc : c.commits with
      | false =>
        rcases h with rfl | ⟨_, hcommits, _⟩
        · exact ⟨hquiet, rfl⟩
        · rw [hc] at hcommits
          cases hcommits
      | true =>
        cases hf : f.commit with
        | none => exact ⟨hquiet, rfl⟩
        | some e =>
          rcases h with rfl | ⟨_, _, hcommit⟩
          · rfl
          · rw [hf] at hcommit
            cases hcommit

/-- A tidy run leaves the contents of the calls that returned, committed. -/
theorem session_tidy {calls : List (Call δ ρ ε × Faults ε)} {w : δ} (h : TidyRun ⟨w, w⟩ calls) :
    (session ⟨w, w⟩ calls).1 =
        ⟨ideal w (session ⟨w, w⟩ calls).2, ideal w (session ⟨w, w⟩ calls).2⟩ ∧
      Faithful w (session ⟨w, w⟩ calls).2 := by
  induction calls generalizing w with
  | nil => exact ⟨rfl, trivial⟩
  | cons call calls ih =>
    obtain ⟨c, f⟩ := call
    obtain ⟨htidy, hrest⟩ := h
    have hserve := serve_tidy htidy
    simp only [session]
    cases hs : c.serve f ⟨w, w⟩ with
    | mk r db =>
      rw [hs] at hserve hrest
      cases r with
      | ok rows =>
        obtain ⟨hwork, hcommitted⟩ := hserve
        obtain ⟨committed, working⟩ := db
        cases hcommitted
        simp only [ideal, Faithful, hwork, true_and]
        exact ih hrest
      | error e =>
        cases hserve
        exact ih hrest

theorem tidyRun_append {calls calls' : List (Call δ ρ ε × Faults ε)} {db : Sqlite δ} :
    TidyRun db (calls ++ calls') ↔ TidyRun db calls ∧ TidyRun (session db calls).1 calls' := by
  induction calls generalizing db with
  | nil => simp [TidyRun, session]
  | cons call calls ih => simp only [List.cons_append, TidyRun, session, ih, and_assoc]

theorem session_append {calls calls' : List (Call δ ρ ε × Faults ε)} {db : Sqlite δ} :
    session db (calls ++ calls') = ((session (session db calls).1 calls').1,
      (session db calls).2 ++ (session (session db calls).1 calls').2) := by
  induction calls generalizing db with
  | nil => rfl
  | cons call calls ih => simp only [List.cons_append, session, ih]

theorem ideal_append {ended ended' : List (Call δ ρ ε × Except ε (List ρ))} {w : δ} :
    ideal w (ended ++ ended') = ideal (ideal w ended) ended' := by
  induction ended generalizing w with
  | nil => rfl
  | cons call ended ih =>
    obtain ⟨c, r⟩ := call
    cases r <;> exact ih

/-- A single statement or a plain query, with nothing failing. -/
def Gentle (c : Call δ ρ ε) (f : Faults ε) : Prop :=
  f = quiet ∧
    match c with
    | .execute _ => True
    | .executeMany _ => False
    | .fetchOne sql | .fetchAll sql => ∀ w w' rows, sql w = .ok (w', rows) → w' = w

theorem Gentle.tidy {c : Call δ ρ ε} {f : Faults ε} (h : Gentle c f) (w : δ) : Tidy c f w := by
  obtain ⟨rfl, hc⟩ := h
  cases c with
  | execute sql =>
    unfold Tidy Call.work
    simp only [quiet, perform]
    cases sql w with
    | error e => exact .inl rfl
    | ok r => exact .inr ⟨⟨_, rfl⟩, rfl, trivial⟩
  | executeMany sqls => exact hc.elim
  | _ sql =>
    refine .inl ?_
    unfold Call.work
    simp only [quiet, perform]
    cases hs : sql w with
    | error e => rfl
    | ok r => exact hc w _ _ hs

theorem tidyRun_of_gentle {calls : List (Call δ ρ ε × Faults ε)} {db : Sqlite δ}
    (h : ∀ x ∈ calls, Gentle x.1 x.2) : TidyRun db calls := by
  induction calls generalizing db with
  | nil => trivial
  | cons call calls ih =>
    exact ⟨(h call (List.mem_cons_self ..)).tidy _, ih fun x hx => h x (List.mem_cons_of_mem _ hx)⟩

/-- However the run goes on from any of its moments, nothing shows a trace of a
call that raised. -/
def Traceless (w : δ) (calls : List (Call δ ρ ε × Faults ε)) : Prop :=
  ∀ before later, before <+: calls → (∀ x ∈ later, Gentle x.1 x.2) → NoTrace w (before ++ later)

/-- A call that is not tidy leaves its changes pending. -/
theorem serve_untidy {c : Call δ ρ ε} {f : Faults ε} {w : δ} (h : ¬ Tidy c f w) :
    (c.serve f ⟨w, w⟩).2.committed = w ∧ (c.serve f ⟨w, w⟩).2.working ≠ w ∧
      ∀ rows, (c.serve f ⟨w, w⟩).1 = .ok rows → (c.work quiet w).2 = (c.serve f ⟨w, w⟩).2.working := by
  simp only [Tidy, not_or, not_and] at h
  obtain ⟨hchanged, hfinish⟩ := h
  rw [serve_eq]
  cases hw : c.work f w with
  | mk r w' =>
    rw [hw] at hchanged hfinish
    cases r with
    | error e => exact ⟨rfl, hchanged, nofun⟩
    | ok rows =>
      have hquiet : c.work quiet w = c.work f w := work_ok (congrArg Prod.fst hw)
      cases hc : c.commits with
      | false => exact ⟨rfl, hchanged, fun _ _ => by rw [hquiet, hw]⟩
      | true =>
        cases hf : f.commit with
        | none => exact absurd hf (hfinish ⟨rows, rfl⟩ hc)
        | some e => exact ⟨rfl, hchanged, nofun⟩

/-- Run a statement that changes nothing. -/
def noop : Call δ ρ ε := .execute fun w => .ok (w, [])

/-- Nothing shows a trace of a call that raised exactly if every call is tidy. -/
theorem traceless_iff_tidy (w : δ) (calls : List (Call δ ρ ε × Faults ε)) :
    Traceless w calls ↔ TidyRun ⟨w, w⟩ calls := by
  constructor
  · intro h
    induction calls using List.reverseRecOn with
    | nil => trivial
    | append_singleton calls call ih =>
      obtain ⟨c, f⟩ := call
      have htidy : TidyRun ⟨w, w⟩ calls := ih fun before later hbefore =>
        h before later (hbefore.trans (List.prefix_append _ _))
      refine tidyRun_append.mpr ⟨htidy, ?_, trivial⟩
      obtain ⟨hsession, _⟩ := session_tidy htidy
      by_contra huntidy
      rw [hsession] at huntidy
      obtain ⟨hcommitted, hworking, hrows⟩ := serve_untidy huntidy
      cases hr : (c.serve f (session ⟨w, w⟩ calls).1).1 with
      | ok rows =>
        have hend := (h _ [] (List.prefix_refl _) nofun).1
        simp only [List.append_nil, session_append, ideal_append, session, hr, ideal] at hend
        rw [hsession] at hend hr
        rw [hcommitted, hrows rows hr] at hend
        exact hworking hend.symm
      | error e =>
        -- the next commit of anyone takes the pending changes along
        have hend := (h _ [(noop, quiet)] (List.prefix_refl _) fun x hx => by
          rw [List.mem_singleton.mp hx]
          exact ⟨rfl, trivial⟩).1
        simp only [session_append, ideal_append, session, hr, ideal] at hend
        rw [hsession] at hend
        exact hworking hend
  · intro h before later hbefore hlater
    obtain ⟨rest, rfl⟩ := hbefore
    have htidy : TidyRun ⟨w, w⟩ (before ++ later) :=
      tidyRun_append.mpr ⟨(tidyRun_append.mp h).1, tidyRun_of_gentle hlater⟩
    obtain ⟨hsession, hfaithful⟩ := session_tidy htidy
    exact ⟨by rw [hsession], hfaithful⟩

/-- Insert a row at the end. -/
def insertRow (row : String) : Call (List String) String Exc :=
  .execute fun w => .ok (w ++ [row], [])

/-- The commit of the first insert fails and its call raises; the commit of the
second takes its row along. -/
theorem raised_row_committed :
    ∃ failing : Faults Exc, ∃ calls, calls = [(insertRow "a", failing), (insertRow "b", quiet)] ∧
      (session ⟨[], []⟩ calls).2.map (fun x => x.2.toBool) = [false, true] ∧
      (session ⟨[], []⟩ calls).1.committed = ["a", "b"] ∧ ¬ NoTrace [] calls := by
  refine ⟨{ commit := some (.exception (.other "OperationalError") "disk I/O error") },
    _, rfl, rfl, rfl, ?_⟩
  rintro ⟨hcommitted, _⟩
  exact absurd hcommitted (by decide)

/-- A statement of the store as the connection runs it. -/
def sqlOf (st : Stmt) : Sql World ρ Exc := fun w =>
  if w.violates st then .error (.exception .integrityError "constraint failed") else .ok (w.apply st, [])

/-- One write of the store is `Database.execute` on the connection: the store
is what the connection sees, and a write whose commit fails has landed there. -/
theorem execute_refines (st : Stmt) (f : Faults Exc) (db : Sqlite World) :
    ∃ c : Choice,
      (interp.entry c db.working (.execute st)).result =
        ((Call.execute (ρ := Unit) (sqlOf st)).serve f db).1.map (fun _ => ()) ∧
      interp.settle db.working (interp.entry c db.working (.execute st)) =
        ((Call.execute (ρ := Unit) (sqlOf st)).serve f db).2.working := by
  rw [serve_eq]
  cases hs : f.statement 0 with
  | some e =>
    refine ⟨{ fault := some (e, false) }, ?_⟩
    cases hv : db.working.violates st <;>
      simp [Interp.entry, Interp.settle, interp, World.answer, Choice.strike, Call.work, perform, hs, hv,
        Except.map]
  | none =>
    cases hv : db.working.violates st with
    | true =>
      refine ⟨{}, ?_⟩
      simp [Interp.entry, Interp.settle, interp, World.answer, Call.work, perform, hs, hv, sqlOf,
        Except.map]
    | false =>
      refine ⟨{ fault := f.commit.map fun e => (e, true) }, ?_⟩
      cases hf : f.commit <;>
        simp [Interp.entry, Interp.settle, interp, World.answer, World.effect, Choice.strike, Call.work,
          Call.commits, perform, hs, hv, sqlOf, Except.map]

end NoblePort.Connection
