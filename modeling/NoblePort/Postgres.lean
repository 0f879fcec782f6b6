import NoblePort.Deployed
import NoblePort.Dialects
import NoblePort.Pending

/-!
# A deployment on Postgres

There each call of `Database` takes a connection from a pool, so calls of
several tasks run side by side. What makes a call one step is that its statement
commits by itself; giving the connection back can still fail afterwards.
-/
namespace NoblePort.Postgres

open Coroutine NoblePort.Values NoblePort.Store NoblePort.Runtime NoblePort.System
open NoblePort.Drivers NoblePort.Deployed

variable {ι : Type} {α : Type}

/-- `max_size` of the pool. -/
def maxSize : Nat := 10

/-- The tables, and the tasks that have one of the connections; the rest is as in
`Machine`. The order of the rows stands for `seq`, which is so taken to follow
the order in which the INSERTs commit. -/
structure Server (ι : Type) where
  tables : World
  holders : List ι
  connected : Bool
  delivered : List (String × JsonObject)
  recorded : List (String × Event)
  stepped : List (ι × Dict)

/-- A statement commits by itself and a query answers with its rows: there are
no calls of `commit` or of a cursor. A statement that `asyncpg` does not bind is
one of those that fail; `Binding` has the runs in which all of these do. -/
def Server.answer (c : DriverChoice) (m : Server ι) : (op : DriverOp ι) → Except Exc op.Resp × Bool
  | .acquire _ =>
    match c.fault with
    | some (e, _) => (.error e, false)
    -- a task that waits for a connection gets nowhere but by being cancelled
    | none => if m.holders.length < maxSize then (.ok (), true) else (.error .cancelled, false)
  -- the pool takes the connection back also when resetting it fails
  | .release _ =>
    match c.fault with
    | some (e, _) => (.error e, true)
    | none => (.ok (), true)
  | .execute st => m.tables.answer c.toChoice (.execute st)
  | .select q => m.tables.answer c.toChoice (.fetch q)
  | .commit | .fetchCursor | .closeCursor => (.ok (), true)
  | .connect => if m.connected then (.ok (), true) else c.inline
  | .send _ _ => c.strike (.ok c.receivers)
  | .record _ _ => (.ok (), true)
  | .jsonDumps d => m.tables.answer c.toChoice (.jsonDumps d)
  | .stepFn _ state => m.tables.answer c.toChoice (.stepFn state)

def Server.effect [DecidableEq ι] (m : Server ι) : DriverOp ι → Server ι
  | .acquire i => { m with holders := m.holders ++ [i] }
  | .release i => { m with holders := m.holders.erase i }
  | .execute st => { m with tables := m.tables.apply st }
  | .connect => { m with connected := true }
  | .send channel payload => { m with delivered := m.delivered ++ [(channel, payload)] }
  | .record channel event => { m with recorded := m.recorded ++ [(channel, event)] }
  | .stepFn i state => { m with stepped := m.stepped ++ [(i, state)] }
  | .select _ | .commit | .fetchCursor | .closeCursor | .jsonDumps _ => m

def servers [DecidableEq ι] : Interp (DriverOp ι) DriverOp.Resp Exc (Server ι) DriverChoice :=
  ⟨Server.answer, Server.effect⟩

namespace Database

/-- `async with self._pg_pool.acquire() as conn`, which has the shape of a lock. -/
def execute (i : ι) (st : Stmt) : Driver ι Unit := locked i (Prog.call (DriverOp.execute st))

/-- `conn.fetchrow` and `conn.fetch`. -/
def fetch (i : ι) (q : Query) : Driver ι q.Rows := locked i (Prog.call (DriverOp.select q))

end Database

/-- What stands behind each call of task `i`. -/
def behind (bus : EventBus) (i : ι) : (op : Op) → Driver ι op.Resp
  | .jsonDumps d => Prog.call (DriverOp.jsonDumps d)
  | .fetch q => Database.fetch i q
  | .execute st => Database.execute i st
  | .publish channel event => unread (bus.publish channel event)
  | .stepFn state => Prog.call (DriverOp.stepFn i state)

abbrev Deployment (ι : Type) := Pool ι (DriverOp ι) DriverOp.Resp Exc Reply (Server ι)

/-- A fresh process on a database. -/
def Server.boot (database : World) : Server ι := ⟨database.tables, [], false, [], [], []⟩

def deploy (bus : EventBus) (ops : ι → Operation) (database : World) : Deployment ι :=
  ⟨Server.boot database, fun i => (ops i).program.subst (behind bus i), []⟩

/-- Any step, failing or not. -/
def Unforced (_ : Deployment ι) (_ : ι) (_ : DriverChoice) : Prop := True

instance (s : Deployment ι) (i : ι) (c : DriverChoice) : Decidable (Unforced s i c) := .isTrue trivial

abbrev Reach [DecidableEq ι] (s₀ s : Deployment ι) : Prop := Pool.Reach servers Unforced s₀ s

/-- What the bus has got, as on a machine of its own. -/
def Server.wire (m : Server ι) : Machine ι :=
  { Machine.boot m.tables with delivered := m.delivered, recorded := m.recorded }

/-- The database has the tables of the history, at every moment. -/
structure Shared (bus : EventBus) (w₀ : World) (m : Server ι) (x : History ι) : Prop where
  visible : m.tables = x.world.tables
  sent : Sent bus w₀ m.wire x
  stepped : ∀ y ∈ m.stepped, ∃ e, (y.1, e) ∈ x.log ∧ e.op = .stepFn y.2

/-- What `asyncpg` raises for a parameter that does not fit its column. -/
def unbound : Exc := .exception .dataError "invalid input for query argument"

def binds (c : DriverChoice) : Option (DriverOp ι) → Bool
  | some (.execute st) => Dialects.accepts false .postgres st || decide (c.fault = some (unbound, false))
  | _ => true

/-- A statement whose parameters do not fit its columns is refused. -/
def Binding (s : Deployment ι) (i : ι) (c : DriverChoice) : Prop := binds c (s.task i).awaits = true

instance (s : Deployment ι) (i : ι) (c : DriverChoice) : Decidable (Binding s i c) :=
  inferInstanceAs (Decidable (_ = true))

/-- What is left of the implementation of a call that has not happened yet. -/
inductive Before (bus : EventBus) (i : ι) : (op : Op) → Driver ι op.Resp → Prop
  | fresh (op : Op) : Before bus i op (behind bus i op)
  | executing (st : Stmt) : Before bus i (.execute st) (leaving i (Prog.call (DriverOp.execute st)))
  | selecting (q : Query) : Before bus i (.fetch q) (leaving i (Prog.call (DriverOp.select q)))
  | encoding (channel : String) (event : Event) : bus = .redis →
      Before bus i (.publish channel event) (unread do
        let payload ← Prog.call (DriverOp.jsonDumps event.dict)
        let n ← Prog.call (DriverOp.send channel payload)
        Prog.call (DriverOp.record channel event)
        return n)
  | sending (channel : String) (event : Event) (payload : JsonObject) : bus = .redis →
      dumps event.dict = .ok payload →
      Before bus i (.publish channel event) (unread do
        let n ← Prog.call (DriverOp.send channel payload)
        Prog.call (DriverOp.record channel event)
        return n)

/-- What is left of it once the call has happened. -/
inductive Pending (bus : EventBus) (w₀ : World) (i : ι) : (op : Op) → Driver ι op.Resp → History ι → Prop
  | releasing {op x} (r : Except Exc op.Resp) : Pending bus w₀ i op (do
        Prog.call (DriverOp.release i)
        Prog.ofExcept r) x
  | ended {op x} (r : Except Exc op.Resp) : Pending bus w₀ i op (Prog.ofExcept r) x
  | recording {channel event n x} : bus = .redis → (channel, event) ∈ posted x.log →
      Pending bus w₀ i (.publish channel event) (unread do
        Prog.call (DriverOp.record channel event)
        return n) x

section Steps

variable {bus : EventBus} {w₀ : World} {m m' : Server ι} {x : History ι} {i : ι}

theorem Pending.stable {op : Op} {q : Driver ι op.Resp} (j : ι) (c : Choice) (op' : Op)
    (h : Pending bus w₀ i op q x) : Pending bus w₀ i op q (interp.extend x j c op') := by
  cases h with
  | releasing r => exact .releasing r
  | ended r => exact .ended r
  | recording hbus hpost => exact .recording hbus (posted_mono (List.prefix_append _ _) hpost)

/-- The call of the drivers was silent, or the call of the history has happened
with it, whichever way it ends. -/
def Advanced (bus : EventBus) (w₀ : World) (i : ι) (op : Op) (m m' : Server ι) (rest : Driver ι op.Resp) :
    Prop :=
  (Before bus i op rest ∧ ∀ x, Shared bus w₀ m x → Shared bus w₀ m' x) ∨
  ∀ x, Shared bus w₀ m x → ∀ r, rest.MayEnd r → ∃ c, (interp.answer c x.world op).1 = r ∧
    Shared bus w₀ m' (interp.extend x i c op) ∧ Pending bus w₀ i op rest (interp.extend x i c op)

theorem Advanced.happened {op : Op} {rest : Driver ι op.Resp}
    (h : ∀ x, Shared bus w₀ m x → ∀ r, rest.MayEnd r → ∃ c landed, x.world.answer c op = (r, landed) ∧
      Shared bus w₀ m' (push x i ⟨op, r, landed⟩) ∧ Pending bus w₀ i op rest (push x i ⟨op, r, landed⟩)) :
    Advanced bus w₀ i op m m' rest := by
  refine .inr fun x hx r hr => ?_
  obtain ⟨c, landed, hanswer, hshared, hpending⟩ := h x hx r hr
  refine ⟨c, ?_⟩
  rw [extend_eq hanswer, show interp.answer c x.world op = (r, landed) from hanswer]
  exact ⟨rfl, hshared, hpending⟩

/-- A call that does not change the tables and is not on the bus. -/
theorem Shared.push_same (h : Shared bus w₀ m x) (e : Answered)
    (hworld : (push x i e).world = x.world) (hposts : posts e = []) : Shared bus w₀ m (push x i e) where
  visible := hworld ▸ h.visible
  sent := h.sent.quiet hposts rfl rfl
  stepped y hy := by
    obtain ⟨e', he', hop⟩ := h.stepped y hy
    exact ⟨e', List.mem_append_left _ he', hop⟩

theorem mayEnd_ofExcept {A : Type} {r r' : Except Exc A} (h : (Prog.ofExcept r' : Driver ι A).MayEnd r) :
    r = r' := by
  cases r' <;> exact h

/-- Giving the connection back may fail. -/
theorem mayEnd_release {A : Type} {r r' : Except Exc A} (h : (do
      Prog.call (DriverOp.release i)
      Prog.ofExcept r' : Driver ι A).MayEnd r) : r = r' ∨ ∃ e, r = .error e := by
  obtain ⟨answer, hend⟩ := h
  cases answer with
  | ok u => exact .inl (mayEnd_ofExcept hend)
  | error e => exact .inr ⟨e, hend⟩

variable [DecidableEq ι]

/-- It is enough to look at each way the call of the drivers can be answered. -/
theorem next_of_answers {P : Server ι → Driver ι α → Prop} {op' : DriverOp ι}
    {k : Except Exc op'.Resp → Driver ι α}
    (h : ∀ c, ∃ r landed, m.answer c op' = (r, landed) ∧ P (if landed then m.effect op' else m) (k r)) :
    (Prog.await op' k).Next servers m P := by
  intro c
  obtain ⟨r, landed, hanswer, hP⟩ := h c
  unfold Interp.settle Interp.entry
  rw [show servers.answer c m op' = (r, landed) from hanswer]
  exact hP

omit [DecidableEq ι] in
/-- The implementation failed before it did anything. -/
theorem Advanced.refused {op : Op} {e : Exc} (h : ∀ w : World, w.answer (refuse e) op = (.error e, false)) :
    Advanced bus w₀ i op m m (.raise e) := by
  refine .happened fun x hx r hr => ⟨refuse e, false, ?_⟩
  cases hr
  exact ⟨h _, hx.push_same _ rfl (posts_unlanded op _), .ended (.error e)⟩

omit [DecidableEq ι] in
/-- The statement or query has been answered, and the connection is to be given
back. If that fails the call raises, with what it did. -/
theorem Advanced.answered {op : Op} {c : Choice} {r₀ : Except Exc op.Resp} {landed : Bool}
    (hanswer : ∀ x, Shared bus w₀ m x → x.world.answer c op = (r₀, landed))
    (hfails : ∀ x, Shared bus w₀ m x → ∀ e, ∃ c, x.world.answer c op = (.error e, landed))
    (hshared : ∀ x, Shared bus w₀ m x → ∀ r, Shared bus w₀ m' (push x i ⟨op, r, landed⟩)) :
    Advanced bus w₀ i op m m' (do
      Prog.call (DriverOp.release i)
      Prog.ofExcept r₀) := by
  refine .happened fun x hx r hr => ?_
  rcases mayEnd_release hr with rfl | ⟨e, rfl⟩
  · exact ⟨c, landed, hanswer x hx, hshared x hx _, .releasing r⟩
  · obtain ⟨c', hc'⟩ := hfails x hx e
    exact ⟨c', landed, hc', hshared x hx _, .releasing r₀⟩

theorem advances_acquire {op : Op} {body : Driver ι op.Resp}
    (hrefuse : ∀ (w : World) e, w.answer (refuse e) op = (.error e, false))
    (hbody : Before bus i op (leaving i body)) :
    (locked i body).Next servers m (Advanced bus w₀ i op m) := by
  refine next_of_answers fun c => ?_
  have hanswer : m.answer c (.acquire i) = match c.fault with
      | some (e, _) => (.error e, false)
      | none => if m.holders.length < maxSize then (.ok (), true) else (.error .cancelled, false) := rfl
  cases hc : c.fault with
  | some f =>
    rw [hc] at hanswer
    exact ⟨_, _, hanswer, .refused fun w => hrefuse w f.1⟩
  | none =>
    rw [hc] at hanswer
    by_cases hfree : m.holders.length < maxSize
    · rw [if_pos hfree] at hanswer
      exact ⟨_, _, hanswer, .inl ⟨hbody, fun x hx => ⟨hx.visible, hx.sent, hx.stepped⟩⟩⟩
    · rw [if_neg hfree] at hanswer
      exact ⟨_, _, hanswer, .refused fun w => hrefuse w .cancelled⟩

omit [DecidableEq ι] in
theorem Shared.violates (h : Shared bus w₀ m x) (st : Stmt) : x.world.violates st = m.tables.violates st := by
  rw [h.visible, World.tables_violates]

omit [DecidableEq ι] in
theorem Shared.answer_execute (h : Shared bus w₀ m x) (c : Choice) (st : Stmt) :
    x.world.answer c (.execute st) = m.tables.answer c (.execute st) := by
  simp only [World.answer, h.violates]

omit [DecidableEq ι] in
theorem Shared.answer_fetch (h : Shared bus w₀ m x) (c : Choice) (q : Query) :
    x.world.answer c (.fetch q) = m.tables.answer c (.fetch q) := by
  simp only [World.answer, h.visible, World.tables_rows]

/-- A statement that has been answered could as well have failed, with what it did. -/
theorem execute_fails {w : World} {c : Choice} {st : Stmt} {r : Except Exc Unit} {landed : Bool}
    (h : w.answer c (.execute st) = (r, landed)) (e : Exc) :
    ∃ c, w.answer c (.execute st) = (.error e, landed) := by
  cases hv : w.violates st with
  | true =>
    simp only [World.answer, hv, if_true, Prod.mk.injEq] at h
    obtain ⟨_, rfl⟩ := h
    exact ⟨refuse e, refuse_execute w e st⟩
  | false => exact ⟨{ fault := some (e, landed) }, answer_allowed hv _⟩

theorem advances_execute (st : Stmt) :
    (leaving i (Prog.call (DriverOp.execute (ι := ι) st))).Next servers m
      (Advanced bus w₀ i (.execute st) m) := by
  refine next_of_answers fun c => ?_
  obtain ⟨r, landed, hanswer⟩ : ∃ r landed, m.answer c (.execute st) = (r, landed) := ⟨_, _, rfl⟩
  have hsame (x : History ι) (hx : Shared bus w₀ m x) :
      x.world.answer c.toChoice (.execute st) = (r, landed) := (hx.answer_execute _ st).trans hanswer
  have hrest : Advanced bus w₀ i (.execute st) m (if landed then m.effect (.execute st) else m) (do
      Prog.call (DriverOp.release i)
      Prog.ofExcept r) := by
    refine .answered hsame (fun x hx e => execute_fails (hsame x hx) e) fun x hx r' => ?_
    cases landed with
    | false => exact hx.push_same _ rfl rfl
    | true =>
      refine ⟨?_, hx.sent.quiet rfl rfl rfl, fun y hy => ?_⟩
      · change m.tables.apply st = (x.world.apply st).tables
        rw [World.tables_apply, hx.visible]
      · obtain ⟨e, he, hop⟩ := hx.stepped y hy
        exact ⟨e, List.mem_append_left _ he, hop⟩
  refine ⟨r, landed, hanswer, ?_⟩
  cases r <;> exact hrest

theorem advances_select (q : Query) :
    (leaving i (Prog.call (DriverOp.select (ι := ι) q))).Next servers m
      (Advanced bus w₀ i (.fetch q) m) := by
  refine next_of_answers fun c => ?_
  obtain ⟨r, landed, hanswer⟩ : ∃ r landed, m.answer c (.select q) = (r, landed) := ⟨_, _, rfl⟩
  have hsame (x : History ι) (hx : Shared bus w₀ m x) :
      x.world.answer c.toChoice (.fetch q) = (r, landed) := (hx.answer_fetch _ q).trans hanswer
  have hrest : Advanced bus w₀ i (.fetch q) m m (do
      Prog.call (DriverOp.release i)
      Prog.ofExcept r) := by
    refine .answered hsame (fun x _ e => ⟨{ fault := some (e, landed) }, rfl⟩) fun x hx r' => ?_
    exact hx.push_same _ (by cases landed <;> rfl) rfl
  have heffect : m.effect (.select q) = m := rfl
  refine ⟨r, landed, hanswer, ?_⟩
  rw [heffect, ite_self]
  cases r <;> exact hrest

theorem advances_jsonDumps (d : Dict) :
    (Prog.call (DriverOp.jsonDumps (ι := ι) d)).Next servers m (Advanced bus w₀ i (.jsonDumps d) m) := by
  refine next_of_answers fun c => ?_
  obtain ⟨r, landed, hanswer⟩ : ∃ r landed, m.answer c (.jsonDumps d) = (r, landed) := ⟨_, _, rfl⟩
  have heffect : m.effect (.jsonDumps d) = m := rfl
  refine ⟨r, landed, hanswer, ?_⟩
  rw [heffect, ite_self]
  refine .happened fun x hx r' hr => ?_
  cases mayEnd_ofExcept hr
  exact ⟨c.toChoice, landed, hanswer, hx.push_same _ (by cases landed <;> rfl) rfl, .ended _⟩

theorem advances_stepFn (state : Dict) :
    (Prog.call (DriverOp.stepFn i state)).Next servers m (Advanced bus w₀ i (.stepFn state) m) := by
  refine next_of_answers fun c => ?_
  obtain ⟨r, landed, hanswer⟩ : ∃ r landed, m.answer c (.stepFn i state) = (r, landed) := ⟨_, _, rfl⟩
  refine ⟨r, landed, hanswer, .happened fun x hx r' hr => ?_⟩
  cases mayEnd_ofExcept hr
  refine ⟨c.toChoice, landed, hanswer, ?_, .ended _⟩
  have hsame := hx.push_same (i := i) ⟨.stepFn state, r, landed⟩ (by cases landed <;> rfl) rfl
  cases landed with
  | false => exact hsame
  | true =>
    refine ⟨hsame.visible, hsame.sent, fun y hy => ?_⟩
    rcases List.mem_append.mp hy with hy | hy
    · exact hsame.stepped y hy
    · rw [List.mem_singleton.mp hy]
      exact ⟨_, List.mem_append_right _ (List.mem_singleton_self _), rfl⟩

omit [DecidableEq ι] in
/-- The event is out. -/
theorem Shared.publish {channel : String} {event : Event} {e : Answered}
    (hbus : match bus with
      | .null => m'.recorded = m.recorded ++ [(channel, event)] ∧ m'.delivered = m.delivered
      | .redis => m'.recorded = m.recorded ∧
        ∃ payload, dumps event.dict = .ok payload ∧ m'.delivered = m.delivered ++ [(channel, payload)])
    (h : Shared bus w₀ m x) (he : e.op = .publish channel event) (hlanded : e.landed = true)
    (htables : m'.tables = m.tables) (hstepped : m'.stepped = m.stepped) :
    Shared bus w₀ m' (push x i e) := by
  obtain ⟨op, r, landed⟩ := e
  cases he
  cases hlanded
  refine ⟨htables.trans h.visible, ?_, fun y hy => ?_⟩
  · cases bus <;> exact @Sent.publish _ _ w₀ m.wire m'.wire x _ h.sent channel event _ rfl hbus
  · obtain ⟨e', he', hop⟩ := h.stepped y (hstepped ▸ hy)
    exact ⟨e', List.mem_append_left _ he', hop⟩

omit [DecidableEq ι] in
theorem pending_published (channel : String) (event : Event) :
    Pending bus w₀ i (.publish channel event) (.ret ()) x :=
  @Pending.ended _ bus w₀ i (.publish channel event) x (.ok ())

theorem advances_record {channel : String} {event : Event} (hnull : bus = .null) :
    (unread do
      Prog.call (DriverOp.record (ι := ι) channel event)
      return 1).Next servers m (Advanced bus w₀ i (.publish channel event) m) := by
  subst hnull
  refine next_of_answers fun c => ⟨_, _, rfl, .happened fun x hx r hr => ?_⟩
  cases hr
  exact ⟨{}, true, rfl, .publish ⟨rfl, rfl⟩ hx rfl rfl rfl rfl, pending_published channel event⟩

theorem advances_connect {channel : String} {event : Event} (hredis : bus = .redis) :
    (unread do
      Prog.call (DriverOp.connect (ι := ι))
      let payload ← Prog.call (DriverOp.jsonDumps event.dict)
      let n ← Prog.call (DriverOp.send channel payload)
      Prog.call (DriverOp.record channel event)
      return n).Next servers m (Advanced bus w₀ i (.publish channel event) m) := by
  refine next_of_answers fun c => ?_
  have hok : Advanced bus w₀ i (.publish channel event) m (m.effect .connect) (unread do
      let payload ← Prog.call (DriverOp.jsonDumps event.dict)
      let n ← Prog.call (DriverOp.send channel payload)
      Prog.call (DriverOp.record channel event)
      return n) :=
    .inl ⟨.encoding channel event hredis, fun x hx => ⟨hx.visible, hx.sent, hx.stepped⟩⟩
  have hanswer : m.answer c .connect = if m.connected then (.ok (), true) else c.inline := rfl
  cases hc : m.connected with
  | true => exact ⟨.ok (), true, by rw [hanswer, hc, if_pos rfl], hok⟩
  | false =>
    rw [hc, if_neg nofun] at hanswer
    rcases inline_cases c with h | ⟨e, h⟩
    · exact ⟨.ok (), true, hanswer.trans h, hok⟩
    · exact ⟨_, _, hanswer.trans h, .refused fun _ => rfl⟩

theorem advances_encode {channel : String} {event : Event} (hredis : bus = .redis) :
    (unread do
      let payload ← Prog.call (DriverOp.jsonDumps (ι := ι) event.dict)
      let n ← Prog.call (DriverOp.send channel payload)
      Prog.call (DriverOp.record channel event)
      return n).Next servers m (Advanced bus w₀ i (.publish channel event) m) := by
  refine next_of_answers fun c => ?_
  obtain ⟨r, landed, hanswer⟩ : ∃ r landed, m.answer c (.jsonDumps event.dict) = (r, landed) := ⟨_, _, rfl⟩
  refine ⟨r, landed, hanswer, ?_⟩
  have heffect : m.effect (.jsonDumps event.dict) = m := rfl
  rw [heffect, ite_self]
  cases r with
  | ok payload =>
    have hpayload : dumps event.dict = .ok payload :=
      dumps_of_ok (c := c.toChoice) (w := m.tables) (congrArg Prod.fst hanswer)
    exact .inl ⟨.sending channel event payload hredis hpayload, fun x hx => hx⟩
  | error e => exact .refused fun _ => rfl

theorem advances_send {channel : String} {event : Event} {payload : JsonObject} (hredis : bus = .redis)
    (hpayload : dumps event.dict = .ok payload) :
    (unread do
      let n ← Prog.call (DriverOp.send (ι := ι) channel payload)
      Prog.call (DriverOp.record channel event)
      return n).Next servers m (Advanced bus w₀ i (.publish channel event) m) := by
  subst hredis
  refine next_of_answers fun c => ?_
  have hout (x : History ι) (hx : Shared .redis w₀ m x) (e : Answered) (he : e.op = .publish channel event)
      (hlanded : e.landed = true) : Shared .redis w₀ (m.effect (.send channel payload)) (push x i e) :=
    .publish (m := m) ⟨rfl, payload, hpayload, rfl⟩ hx he hlanded rfl rfl
  rcases strike_cases c.toChoice c.receivers with h | ⟨e, landed, h⟩
  · refine ⟨_, _, h, .happened fun x hx r hr => ?_⟩
    obtain ⟨c', hc'⟩ : ∃ c, x.world.answer c (.publish channel event) = (r, true) := by
      obtain ⟨answer, hend⟩ := hr
      cases answer with
      | ok u =>
        cases hend
        exact ⟨{}, rfl⟩
      | error e =>
        cases hend
        exact ⟨{ fault := some (e, true) }, rfl⟩
    refine ⟨c', true, hc', hout x hx _ rfl rfl, ?_⟩
    · refine .recording rfl ?_
      rw [posted_push]
      exact List.mem_append_right _ (List.mem_singleton_self _)
  · refine ⟨_, _, h, ?_⟩
    cases landed with
    | false => exact .refused fun _ => rfl
    | true =>
      refine .happened fun x hx r hr => ?_
      cases hr
      exact ⟨{ fault := some (e, true) }, true, rfl, hout x hx _ rfl rfl, .ended (.error e)⟩

theorem before_advances {op : Op} {q : Driver ι op.Resp} (m : Server ι) (h : Before bus i op q) :
    q.Next servers m (Advanced bus w₀ i op m) := by
  cases h with
  | fresh =>
    cases op with
    | jsonDumps d => exact advances_jsonDumps d
    | fetch q => exact advances_acquire (fun _ _ => rfl) (.selecting q)
    | execute st => exact advances_acquire (fun w e => refuse_execute w e st) (.executing st)
    | publish channel event =>
      cases bus with
      | null => exact advances_record rfl
      | redis => exact advances_connect rfl
    | stepFn state => exact advances_stepFn state
  | executing st => exact advances_execute st
  | selecting q => exact advances_select q
  | encoding channel event hbus => exact advances_encode hbus
  | sending channel event payload hbus hpayload => exact advances_send hbus hpayload

theorem pending_completes {op : Op} {op' : DriverOp ι} {k : Except Exc op'.Resp → Driver ι op.Resp}
    (hx : Shared bus w₀ m x) (h : Pending bus w₀ i op (.await op' k) x) :
    (Prog.await op' k).Next servers m fun m' rest => Shared bus w₀ m' x ∧ Pending bus w₀ i op rest x := by
  generalize hq : Prog.await op' k = q at h
  cases h with
  | ended r => cases r <;> cases hq
  | releasing r =>
    refine next_of_answers fun c => ?_
    have hanswer : m.answer c (.release i) = match c.fault with
        | some (e, _) => (.error e, true)
        | none => (.ok (), true) := rfl
    have hx' : Shared bus w₀ (m.effect (.release i)) x := ⟨hx.visible, hx.sent, hx.stepped⟩
    cases hc : c.fault with
    | none =>
      rw [hc] at hanswer
      exact ⟨_, _, hanswer, hx', .ended r⟩
    | some f =>
      rw [hc] at hanswer
      exact ⟨_, _, hanswer, hx', .ended (.error f.1)⟩
  | @recording channel event n _ hbus hpost =>
    subst hbus
    refine next_of_answers fun c => ⟨_, _, rfl, ⟨hx.visible, ?_, hx.stepped⟩, pending_published channel event⟩
    obtain ⟨hpublished, hdelivered, hrecorded⟩ := hx.sent
    refine ⟨hpublished, hdelivered, fun y hy => ?_⟩
    rcases List.mem_append.mp hy with hy | hy
    · exact hrecorded y hy
    · rw [List.mem_singleton.mp hy]
      exact hpost

end Steps

/-- The pool against the store and the bus. -/
def foresight [DecidableEq ι] (bus : EventBus) (w₀ : World) :
    Foresight interp servers (behind (ι := ι) bus) where
  shared := Shared bus w₀
  before := Before bus
  pending := Pending bus w₀
  stable j c op h := h.stable j c op
  begins _ op := .fresh op
  advances m h := before_advances m h
  completes := pending_completes

section Runs

instance : Inhabited Exc := ⟨.cancelled⟩

variable [DecidableEq ι]

theorem related_boot (bus : EventBus) (ops : ι → Operation) (database : World) :
    (foresight bus database).Related (start ops database) (deploy bus ops database)
      (fun i p => p = (ops i).program) (fun _ _ => True) where
  follows i := .idle (ops i).program
  run _ hp := ⟨start ops database, .start, (funext hp).symm,
    ⟨rfl, ⟨(List.append_nil _).symm, got_nothing bus rfl rfl⟩, List.forall_mem_nil _⟩, fun _ => trivial⟩

/-- The system at `s` has ended the same calls in the same way, has the tables of
the database, and has taken the same steps; the bus got its events. -/
structure Mirrors (bus : EventBus) (database : World) (s' : Deployment ι) (s : Stack ι) : Prop where
  ended : ∀ i r, (s'.task i).outcome = some r → outcomeOf s i = some r
  visible : s'.world.tables = s.world.tables
  sent : Sent bus database s'.world.wire s.past
  stepped : ∀ y ∈ s'.world.stepped, ∃ e, (y.1, e) ∈ s.log ∧ e.op = .stepFn y.2

/-- Every run on the pool, with up to ten statements side by side and any call of
the drivers failing or cancelled, also one that gives a connection back after
its statement has committed, mirrors a run of the system in which every call of
the store and of the bus is one step. -/
theorem pooled_mirrors (bus : EventBus) (ops : ι → Operation) (database : World) (s' : Deployment ι)
    (h : Reach (deploy bus ops database) s') :
    ∃ s, System.Reach Anyhow (start ops database) s ∧ Mirrors bus database s' s := by
  obtain ⟨s, hs, hshared, hended⟩ := Foresight.exists_run (related_boot bus ops database) h
  exact ⟨s, hs, fun i r hr => outcomeOf_of_outcome (hended i r hr), hshared.visible, hshared.sent,
    hshared.stepped⟩

/-- Two kills of one thread. -/
def kills : Fin 2 → Operation := fun _ => .requestKill .postgres "t" "now"

def raised (p : Driver ι Reply) : Option Exc :=
  match p with
  | .raise e => some e
  | _ => none

omit [DecidableEq ι] in
theorem outcome_of_raised {p : Driver ι Reply} {e : Exc} (h : raised p = some e) :
    p.outcome = some (.error e) := by
  unfold raised at h
  split at h
  · cases h
    rfl
  · cases h

/-- Both kills have a connection at once. One is refused, as `asyncpg` does not
bind its timestamp; the other is cancelled while it gives its connection back. -/
theorem pooled_mirrors_kills : ∃ s' s, Pool.Reach servers Binding (deploy .null kills World.empty) s' ∧
    System.Reach Anyhow (start kills World.empty) s ∧ Mirrors .null World.empty s' s ∧
    outcomeOf s 0 = some (.error unbound) ∧ outcomeOf s 1 = some (.error .cancelled) ∧
    s.world.agentThreadState = [] := by
  obtain ⟨s', h, hrefused, hcancelled, hrows⟩ := Pool.Reach.exists_of_exec servers Binding
    (deploy .null kills World.empty)
    (P := fun s' => raised (s'.task 0) = some unbound ∧ raised (s'.task 1) = some .cancelled ∧
      s'.world.tables.agentThreadState = [])
    ([(0, smooth), (1, smooth), (0, smooth), (1, smooth), (1, { fault := some (.cancelled, false) })] ++
      List.replicate 5 (0, smooth) ++ [(0, { fault := some (unbound, false) }), (0, smooth)]) (by decide)
  obtain ⟨s, hs, hmirrors⟩ := pooled_mirrors .null kills World.empty s' (h.mono fun _ _ _ _ => trivial)
  rw [hmirrors.visible] at hrows
  exact ⟨s', s, h, hs, hmirrors, hmirrors.ended 0 _ (outcome_of_raised hrefused),
    hmirrors.ended 1 _ (outcome_of_raised hcancelled), hrows⟩

section Bound

variable {ops : ι → Operation} {bus : EventBus} {database : World} {s' : Deployment ι}

/-- No statement of the two tables with a timestamp fits. -/
def timeless : Stmt → Bool
  | .insertAuditLog _ _ | .insertThreadState _ | .updateThreadState _ _ _ _ _ => false
  | _ => true

theorem timeless_of_accepts {st : Stmt} (h : Dialects.accepts false .postgres st = true) :
    timeless st = true := by
  cases st with
  | insertAuditLog | insertThreadState | updateThreadState => simp [Dialects.accepts, Dialects.bindings] at h
  | insertAgentMetrics | insertCheckpoint => rfl

/-- With the statements bound as `asyncpg` binds them, no audit row and no
thread row ever goes in. -/
theorem bound_unwritten (h : Pool.Reach servers Binding (deploy bus ops database) s') :
    s'.world.tables.auditLog = database.auditLog ∧
    s'.world.tables.agentThreadState = database.agentThreadState := by
  induction h with
  | start => exact ⟨rfl, rfl⟩
  | @step s s' i c _ hbinding hstep ih =>
    obtain ⟨op, k, ht, hworld, _, _⟩ := Pool.step_cases servers hstep
    have hbinds : binds c (some op) = true := Pool.awaits_of_task ht ▸ hbinding
    rw [hworld]
    unfold Interp.settle
    split
    · rename_i hlanded
      cases op with
      | execute st =>
        have htimeless : timeless st = true := by
          rcases Bool.or_eq_true_iff.mp hbinds with haccepts | hrefused
          · exact timeless_of_accepts haccepts
          · have hfault : c.fault = some (unbound, false) := of_decide_eq_true hrefused
            have hnot : (s.world.tables.answer c.toChoice (.execute st)).2 = false := by
              simp only [World.answer, Choice.strike, hfault]
              split <;> rfl
            exact absurd (hnot.symm.trans hlanded) Bool.false_ne_true
        cases st with
        | insertAgentMetrics | insertCheckpoint => exact ih
        | insertAuditLog | insertThreadState | updateThreadState => cases htimeless
      | _ => exact ih
    · exact ih

end Bound

end Runs

end NoblePort.Postgres
