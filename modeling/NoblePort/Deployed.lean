import NoblePort.Drivers

/-!
# A deployment runs like the system

Every run on the drivers, with all its interleavings, failures and
cancellations, follows a run in which each call of the store and the bus is one
step. The lock is what makes a call of the database one step.
-/
namespace NoblePort.Deployed

open Coroutine NoblePort.Values NoblePort.Store NoblePort.Connection NoblePort.Runtime NoblePort.System
open NoblePort.Drivers

variable {ι : Type}

abbrev History (ι : Type) := Past ι Op Op.Resp Exc World

/-- What the calls of a log made of `w₀`. -/
def replay (w₀ : World) (log : List (ι × Answered)) : World :=
  log.foldl (fun w x => interp.settle w x.2) w₀

/-- A statement that the caller was told is done. -/
def Acknowledged (e : Answered) : Prop := e.failed = false ∧ ∃ st, e.op = .execute st

/-- What an answered call has put on the bus: an event, with its channel. -/
def posts (e : Answered) : List (String × Event) :=
  match e.op with
  | .publish channel event => if e.landed then [(channel, event)] else []
  | _ => []

def posted (log : List (ι × Answered)) : List (String × Event) := log.flatMap fun x => posts x.2

/-- On the wire is the JSON text of the event. -/
def Encodes (message : String × JsonObject) (event : Event) : Prop := dumps event.dict = .ok message.2

/-- It went to the channel of the post. -/
def Conveys (message : String × JsonObject) (post : String × Event) : Prop :=
  message.1 = post.1 ∧ Encodes message post.2

/-- The posts are what the bus got, in order, each once. -/
def Got (m : Machine ι) (sent : List (String × Event)) : EventBus → Prop
  | .null => m.recorded = sent ∧ m.delivered = []
  | .redis => List.Forall₂ Conveys m.delivered sent ∧ ∀ x ∈ m.recorded, x ∈ sent

/-- The bus got the events of the history. -/
def Sent (bus : EventBus) (w₀ : World) (m : Machine ι) (x : History ι) : Prop :=
  x.world.published = w₀.published ++ (posted x.log).map Prod.snd ∧ Got m (posted x.log) bus

/-- While nobody has the lock the connection sees the tables of the history, and
the file holds those of an earlier moment, with every acknowledged statement. -/
structure Shared (bus : EventBus) (w₀ : World) (m : Machine ι) (x : History ι) : Prop where
  replayed : x.world = replay w₀ x.log
  free : m.lockedBy = none → m.db.working = x.world.tables
  durable : ∃ old new, x.log = old ++ new ∧ m.db.committed = (replay w₀ old).tables ∧
    ∀ y ∈ new, ¬ Acknowledged y.2
  sent : Sent bus w₀ m x
  stepped : ∀ y ∈ m.stepped, ∃ e, (y.1, e) ∈ x.log ∧ e.op = .stepFn y.2

/-- What is left of the implementation of a call that has not happened yet. -/
inductive Before (bus : EventBus) (i : ι) : (op : Op) → Driver ι op.Resp → Machine ι → History ι → Prop
  | fresh {op m x} : m.lockedBy ≠ some i → Before bus i op (behind bus i op) m x
  | executing {st m x} : m.lockedBy = some i → m.db.working = x.world.tables →
      Before bus i (.execute st) (leaving i do
        Prog.call (DriverOp.execute st)
        Prog.call DriverOp.commit) m x
  | committing {st m x} : m.lockedBy = some i → x.world.violates st = false →
      m.db.working = (x.world.apply st).tables →
      Before bus i (.execute st) (leaving i (Prog.call DriverOp.commit)) m x
  | selecting {q m x} : m.lockedBy = some i → m.db.working = x.world.tables →
      Before bus i (.fetch q) (leaving i do
        let rows ← Prog.call (DriverOp.select q)
        Prog.call DriverOp.fetchCursor
        Prog.call DriverOp.closeCursor
        return rows) m x
  | fetching {q m x} (scan : List AuditRow → List AuditRow) : m.lockedBy = some i →
      m.db.working = x.world.tables →
      Before bus i (.fetch q) (leaving i do
        Prog.call DriverOp.fetchCursor
        Prog.call DriverOp.closeCursor
        return x.world.rows scan q) m x
  | closing {q m x} (scan : List AuditRow → List AuditRow) : m.lockedBy = some i →
      m.db.working = x.world.tables →
      Before bus i (.fetch q) (leaving i do
        Prog.call DriverOp.closeCursor
        return x.world.rows scan q) m x
  | encoding {channel event m x} : bus = .redis → m.lockedBy ≠ some i →
      Before bus i (.publish channel event) (unread do
        let payload ← Prog.call (DriverOp.jsonDumps event.dict)
        let n ← Prog.call (DriverOp.send channel payload)
        Prog.call (DriverOp.record channel event)
        return n) m x
  | sending {channel event payload m x} : bus = .redis → m.lockedBy ≠ some i →
      dumps event.dict = .ok payload →
      Before bus i (.publish channel event) (unread do
        let n ← Prog.call (DriverOp.send channel payload)
        Prog.call (DriverOp.record channel event)
        return n) m x

/-- What is left of it once the call has happened and was answered `r`. -/
inductive After (bus : EventBus) (w₀ : World) (i : ι) :
    (op : Op) → Except Exc op.Resp → Driver ι op.Resp → Machine ι → History ι → Prop
  | releasing {op r m x} : m.lockedBy = some i → m.db.working = x.world.tables →
      After bus w₀ i op r (do
        Prog.call (DriverOp.release i)
        Prog.ofExcept r) m x
  | ended {op r m x} : m.lockedBy ≠ some i → After bus w₀ i op r (Prog.ofExcept r) m x
  | recording {channel event n m x} : bus = .redis → m.lockedBy ≠ some i →
      (channel, event) ∈ posted x.log →
      After bus w₀ i (.publish channel event) (.ok ()) (unread do
        Prog.call (DriverOp.record channel event)
        return n) m x

/-- What the others do to what a task knows: the lock and what it guards are its own. -/
structure Others (i : ι) (m : Machine ι) (x : History ι) (m' : Machine ι) (y : History ι) : Prop where
  held : m.lockedBy = some i →
    m'.lockedBy = some i ∧ m'.db.working = m.db.working ∧ y.world.tables = x.world.tables
  kept : m.lockedBy ≠ some i → m'.lockedBy ≠ some i
  logged : x.log <+: y.log

/-- One more answered call. -/
def push (x : History ι) (i : ι) (e : Answered) : History ι :=
  ⟨interp.settle x.world e, x.log ++ [(i, e)]⟩

theorem extend_eq {x : History ι} {i : ι} {c : Choice} {op : Op} {r : Except Exc op.Resp} {landed : Bool}
    (h : x.world.answer c op = (r, landed)) : interp.extend x i c op = push x i ⟨op, r, landed⟩ := by
  unfold Interp.extend Interp.entry push
  rw [show interp.answer c x.world op = (r, landed) from h]

theorem replay_push {w₀ : World} {x : History ι} {i : ι} {e : Answered} (h : x.world = replay w₀ x.log) :
    (push x i e).world = replay w₀ (push x i e).log := by
  unfold push replay
  rw [List.foldl_append, List.foldl_cons, List.foldl_nil, h]
  rfl

theorem log_push (x : History ι) (i : ι) (e : Answered) : x.log <+: (push x i e).log :=
  List.prefix_append _ _

@[simp] theorem posted_push (x : History ι) (i : ι) (e : Answered) :
    posted (push x i e).log = posted x.log ++ posts e := by
  simp [posted, push]

theorem posts_unlanded (op : Op) (r : Except Exc op.Resp) : posts ⟨op, r, false⟩ = [] := by
  cases op <;> rfl

theorem posted_mono {log log' : List (ι × Answered)} (h : log <+: log') {post : String × Event}
    (hpost : post ∈ posted log) : post ∈ posted log' := by
  obtain ⟨x, hx, hby⟩ := List.mem_flatMap.mp hpost
  exact List.mem_flatMap.mpr ⟨x, h.subset hx, hby⟩

theorem published_settle (w : World) (e : Answered) :
    (interp.settle w e).published = w.published ++ (posts e).map Prod.snd := by
  obtain ⟨op, r, landed⟩ := e
  cases landed <;> cases op with
  | execute st => cases st <;> simp [Interp.settle, World.effect, World.apply, posts]
  | _ => simp [Interp.settle, World.effect, posts]

section Steps

variable {bus : EventBus} {w₀ : World} {m m' : Machine ι} {x y : History ι} {i : ι}

theorem got_nothing (bus : EventBus) (hd : m.delivered = []) (hr : m.recorded = []) : Got m [] bus := by
  cases bus with
  | null => exact ⟨hr, hd⟩
  | redis =>
    refine ⟨hd ▸ .nil, fun y hy => ?_⟩
    rwa [hr] at hy

theorem Sent.same (h : Sent bus w₀ m x) (hd : m'.delivered = m.delivered)
    (hr : m'.recorded = m.recorded) : Sent bus w₀ m' x := by
  obtain ⟨hpublished, hbus⟩ := h
  refine ⟨hpublished, ?_⟩
  cases bus <;> unfold Got at hbus ⊢ <;> rw [hd, hr] <;> exact hbus

theorem Sent.push (h : Sent bus w₀ m x) (e : Answered) (hgot : Got m' (posted x.log ++ posts e) bus) :
    Sent bus w₀ m' (Deployed.push x i e) := by
  unfold Sent
  rw [posted_push, List.map_append, ← List.append_assoc, ← h.1]
  exact ⟨published_settle x.world e, hgot⟩

/-- A call that is not on the bus. -/
theorem Sent.quiet {e : Answered} (h : Sent bus w₀ m x) (he : posts e = []) (hd : m'.delivered = m.delivered)
    (hr : m'.recorded = m.recorded) : Sent bus w₀ m' (Deployed.push x i e) := by
  refine (h.same hd hr).push e ?_
  rw [he, List.append_nil]
  exact (h.same hd hr).2

/-- A call of the drivers that no call of the history comes with. -/
theorem Shared.silent (h : Shared bus w₀ m x) (hfree : m'.lockedBy = none → m'.db.working = x.world.tables)
    (hcommitted : m'.db.committed = m.db.committed) (hsent : Sent bus w₀ m' x)
    (hstepped : m'.stepped = m.stepped) : Shared bus w₀ m' x where
  replayed := h.replayed
  free := hfree
  durable := hcommitted ▸ h.durable
  sent := hsent
  stepped := hstepped ▸ h.stepped

/-- A call of the drivers with which a call of the history happens. The file is
as before and nobody was told that a statement is done, or it has everything. -/
theorem Shared.push (h : Shared bus w₀ m x) (e : Answered)
    (hfree : m'.lockedBy = none → m'.db.working = (push x i e).world.tables)
    (hdurable : (m'.db.committed = m.db.committed ∧ ¬ Acknowledged e) ∨
      m'.db.committed = (Deployed.push x i e).world.tables)
    (hsent : Sent bus w₀ m' (Deployed.push x i e))
    (hstepped : ∀ y ∈ m'.stepped, y ∈ m.stepped ∨ y.1 = i ∧ e.op = .stepFn y.2) :
    Shared bus w₀ m' (Deployed.push x i e) where
  replayed := replay_push h.replayed
  free := hfree
  durable := by
    rcases hdurable with ⟨hcommitted, hnot⟩ | hcommitted
    · obtain ⟨old, new, hlog, hold, hnew⟩ := h.durable
      refine ⟨old, new ++ [(i, e)], ?_, hcommitted.trans hold, ?_⟩
      · rw [Deployed.push, hlog, List.append_assoc]
      · intro y hy
        rcases List.mem_append.mp hy with hy | hy
        · exact hnew y hy
        · rw [List.mem_singleton.mp hy]
          exact hnot
    · refine ⟨(Deployed.push x i e).log, [], (List.append_nil _).symm, ?_, List.forall_mem_nil _⟩
      rw [hcommitted, replay_push h.replayed]
  sent := hsent
  stepped := by
    intro y hy
    rcases hstepped y hy with hold | ⟨rfl, hop⟩
    · obtain ⟨e', he', hop⟩ := h.stepped y hold
      exact ⟨e', List.mem_append_left _ he', hop⟩
    · exact ⟨e, List.mem_append_right _ (List.mem_singleton_self _), hop⟩

/-- A step that leaves the lock, the connection and the tables as they are. -/
theorem others_quiet {j : ι} (hlock : m'.lockedBy = m.lockedBy) (hworking : m'.db.working = m.db.working)
    (htables : y.world.tables = x.world.tables) (hlogged : x.log <+: y.log) : Others j m x m' y :=
  ⟨fun h => ⟨hlock.trans h, hworking, htables⟩, fun h => hlock ▸ h, hlogged⟩

/-- A step of the task that has the lock, takes it or gives it back. -/
theorem others_locked {j : ι} (hj : j ≠ i) (hm : ∀ k, m.lockedBy = some k → k = i)
    (hm' : ∀ k, m'.lockedBy = some k → k = i) (hlogged : x.log <+: y.log) : Others j m x m' y :=
  ⟨fun h => absurd (hm j h) hj, fun _ h => hj (hm' j h), hlogged⟩

theorem Others.before {op : Op} {q : Driver ι op.Resp} (h : Others i m x m' y)
    (hq : Before bus i op q m x) : Before bus i op q m' y := by
  have hrows (q : Query) (scan : List AuditRow → List AuditRow) (hl : m.lockedBy = some i) :
      x.world.rows scan q = y.world.rows scan q := by
    rw [← World.tables_rows, ← (h.held hl).2.2, World.tables_rows]
  have hworking (hl : m.lockedBy = some i) (hw : m.db.working = x.world.tables) :
      m'.db.working = y.world.tables := by
    rw [(h.held hl).2.1, (h.held hl).2.2, hw]
  cases hq with
  | fresh hl => exact .fresh (h.kept hl)
  | executing hl hw => exact .executing (h.held hl).1 (hworking hl hw)
  | @committing st _ _ hl hv hw =>
    have htables := (h.held hl).2.2
    refine .committing (h.held hl).1 ?_ ?_
    · rw [← World.tables_violates, htables, World.tables_violates, hv]
    · rw [(h.held hl).2.1, hw, World.tables_apply, World.tables_apply, htables]
  | selecting hl hw => exact .selecting (h.held hl).1 (hworking hl hw)
  | fetching scan hl hw =>
    rw [hrows _ scan hl]
    exact .fetching scan (h.held hl).1 (hworking hl hw)
  | closing scan hl hw =>
    rw [hrows _ scan hl]
    exact .closing scan (h.held hl).1 (hworking hl hw)
  | encoding hbus hl => exact .encoding hbus (h.kept hl)
  | sending hbus hl hd => exact .sending hbus (h.kept hl) hd

theorem Others.after {op : Op} {r : Except Exc op.Resp} {q : Driver ι op.Resp} (h : Others i m x m' y)
    (hq : After bus w₀ i op r q m x) : After bus w₀ i op r q m' y := by
  cases hq with
  | releasing hl hw =>
    exact .releasing (h.held hl).1 (by rw [(h.held hl).2.1, (h.held hl).2.2, hw])
  | ended hl => exact .ended (h.kept hl)
  | recording hbus hl hpost => exact .recording hbus (h.kept hl) (posted_mono h.logged hpost)

/-- The call of the drivers was silent, or the call of the history has happened with it. -/
def Advanced (bus : EventBus) (w₀ : World) (i : ι) (op : Op) (m : Machine ι) (x : History ι)
    (m' : Machine ι) (rest : Driver ι op.Resp) : Prop :=
  (Shared bus w₀ m' x ∧ Before bus i op rest m' x ∧ ∀ j, j ≠ i → Others j m x m' x) ∨
  ∃ c, Shared bus w₀ m' (interp.extend x i c op) ∧
    After bus w₀ i op (interp.answer c x.world op).1 rest m' (interp.extend x i c op) ∧
    ∀ j, j ≠ i → Others j m x m' (interp.extend x i c op)

/-- It is enough to look at each way the call of the drivers can be answered. -/
theorem next_of_answers {α : Type} {P : Machine ι → Driver ι α → Prop} {op' : DriverOp ι}
    {k : Except Exc op'.Resp → Driver ι α}
    (h : ∀ c, ∃ r landed, m.answer c op' = (r, landed) ∧ P (if landed then m.effect op' else m) (k r)) :
    (Prog.await op' k).Next drivers m P := by
  intro c
  obtain ⟨r, landed, hanswer, hP⟩ := h c
  unfold Interp.settle Interp.entry
  rw [show drivers.answer c m op' = (r, landed) from hanswer]
  exact hP

theorem Advanced.happened {op : Op} {rest : Driver ι op.Resp} (c : Choice) (r : Except Exc op.Resp)
    (landed : Bool) (h : x.world.answer c op = (r, landed))
    (hshared : Shared bus w₀ m' (Deployed.push x i ⟨op, r, landed⟩))
    (hafter : After bus w₀ i op r rest m' (Deployed.push x i ⟨op, r, landed⟩))
    (hothers : ∀ j, j ≠ i → Others j m x m' (Deployed.push x i ⟨op, r, landed⟩)) :
    Advanced bus w₀ i op m x m' rest := by
  refine .inr ⟨c, ?_⟩
  rw [extend_eq h, show interp.answer c x.world op = (r, landed) from h]
  exact ⟨hshared, hafter, hothers⟩

/-- Raise `e`, and nothing else. -/
def refuse (e : Exc) : Choice := { fault := some (e, false) }

/-- The implementation failed before it did anything. -/
theorem Advanced.refused {op : Op} {e : Exc} {rest : Driver ι op.Resp} (hs : Shared bus w₀ m x)
    (h : x.world.answer (refuse e) op = (.error e, false))
    (hafter : ∀ y : History ι, y.world = x.world → After bus w₀ i op (.error e) rest m y) :
    Advanced bus w₀ i op m x m rest := by
  have hsent : Sent bus w₀ m (Deployed.push x i ⟨op, .error e, false⟩) :=
    hs.sent.quiet (posts_unlanded op _) rfl rfl
  refine .happened _ _ _ h (hs.push _ hs.free (.inl ⟨rfl, nofun⟩) hsent fun y hy => .inl hy) (hafter _ rfl)
    fun j _ => others_quiet rfl rfl rfl (log_push x i _)

theorem strike_cases {A : Type} (c : Choice) (a : A) :
    c.strike (.ok a) = (.ok a, true) ∨ ∃ e landed, c.strike (.ok a) = (.error e, landed) := by
  unfold Choice.strike
  cases c.fault with
  | none => exact .inl rfl
  | some f => exact .inr ⟨f.1, f.2, rfl⟩

theorem inline_cases (c : DriverChoice) : c.inline = (.ok (), true) ∨ ∃ e, c.inline = (.error e, false) := by
  unfold DriverChoice.inline
  split
  · exact .inr ⟨_, rfl⟩
  · exact .inl rfl

theorem acquire_cases (c : DriverChoice) (m : Machine ι) (i : ι) :
    (m.lockedBy = none ∧ m.answer c (.acquire i) = (.ok (), true)) ∨
      ∃ e, m.answer c (.acquire i) = (.error e, false) := by
  unfold Machine.answer
  cases c.fault with
  | some f => exact .inr ⟨f.1, rfl⟩
  | none => cases m.lockedBy with
    | none => exact .inl ⟨rfl, rfl⟩
    | some j => exact .inr ⟨.cancelled, rfl⟩

theorem refuse_execute (w : World) (e : Exc) (st : Stmt) :
    w.answer (refuse e) (.execute st) = (.error e, false) := by
  simp only [World.answer, refuse]
  split <;> rfl

/-- Wait for the lock: the task gets it while it is free, or it gives up. -/
theorem advances_locked {op : Op} {body : Driver ι op.Resp} (hs : Shared bus w₀ m x)
    (hl : m.lockedBy ≠ some i) (hrefuse : ∀ e, x.world.answer (refuse e) op = (.error e, false))
    (hbody : ∀ m' : Machine ι, m'.lockedBy = some i → m'.db.working = x.world.tables →
      Before bus i op (leaving i body) m' x) :
    (locked i body).Next drivers m (Advanced bus w₀ i op m x) := by
  refine next_of_answers fun c => ?_
  rcases acquire_cases c m i with ⟨hfree, hanswer⟩ | ⟨e, hanswer⟩
  · refine ⟨_, _, hanswer, .inl ⟨?_, hbody _ rfl (hs.free hfree), fun j hj => ?_⟩⟩
    · exact hs.silent nofun rfl (hs.sent.same rfl rfl) rfl
    · refine others_locked hj (fun k hk => ?_) (fun k hk => ?_) (List.prefix_refl _)
      · rw [hfree] at hk
        cases hk
      · exact (Option.some.inj hk).symm
  · exact ⟨_, _, hanswer, .refused hs (hrefuse e) fun y _ => .ended hl⟩

/-- The task fails while it has the lock, before it has changed anything. -/
theorem advances_dropped {op : Op} {e : Exc} (hs : Shared bus w₀ m x) (hl : m.lockedBy = some i)
    (hw : m.db.working = x.world.tables) (h : x.world.answer (refuse e) op = (.error e, false)) :
    Advanced bus w₀ i op m x m (do
      Prog.call (DriverOp.release i)
      Prog.ofExcept (.error e)) :=
  .refused hs h fun _ hy => .releasing hl (hy ▸ hw)

theorem owner_unique {k : ι} (hl : m.lockedBy = some i) (hk : m.lockedBy = some k) : k = i :=
  Option.some.inj (hk.symm.trans hl)

theorem held_not_free {P : Prop} (hl : m.lockedBy = some i) (hfree : m.lockedBy = none) : P := by
  rw [hl] at hfree
  cases hfree

/-- A statement that no constraint forbids ends as the fault has it. -/
theorem answer_allowed {w : World} {st : Stmt} (hv : w.violates st = false) (c : Choice) :
    w.answer c (.execute st) = c.strike (.ok ()) := by
  simp only [World.answer, hv, Bool.false_eq_true, if_false]

theorem not_acknowledged {op : Op} {e : Exc} {landed : Bool} :
    ¬ Acknowledged (⟨op, .error e, landed⟩ : Answered) := fun h => nomatch h.1

/-- The statement has changed the tables, and its caller is told so or not. The
file is as before, or it has them. -/
theorem Advanced.applied {st : Stmt} {f : Option (Exc × Bool)} {r : Except Exc Unit} (hs : Shared bus w₀ m x)
    (hl : m.lockedBy = some i) (hv : x.world.violates st = false)
    (hr : Choice.strike { fault := f } (.ok ()) = (r, true)) (hl' : m'.lockedBy = some i)
    (hw' : m'.db.working = (x.world.apply st).tables)
    (hdurable : (m'.db.committed = m.db.committed ∧ ∃ e, r = .error e) ∨
      m'.db.committed = (x.world.apply st).tables)
    (hbus : m'.delivered = m.delivered ∧ m'.recorded = m.recorded) (hstepped : m'.stepped = m.stepped) :
    Advanced bus w₀ i (.execute st) m x m' (do
      Prog.call (DriverOp.release i)
      Prog.ofExcept r) := by
  refine .happened _ _ _ ((answer_allowed hv _).trans hr) (hs.push _ (held_not_free hl') ?_ ?_ ?_)
    (.releasing hl' hw') fun j hj => others_locked hj (fun k => owner_unique hl)
      (fun k => owner_unique hl') (log_push x i _)
  · rcases hdurable with ⟨hcommitted, e, rfl⟩ | hcommitted
    · exact .inl ⟨hcommitted, not_acknowledged⟩
    · exact .inr hcommitted
  · exact hs.sent.quiet rfl hbus.1 hbus.2
  · intro y hy
    exact .inl (hstepped ▸ hy)

theorem advances_execute {st : Stmt} (hs : Shared bus w₀ m x) (hl : m.lockedBy = some i)
    (hw : m.db.working = x.world.tables) :
    (leaving i do
      Prog.call (DriverOp.execute (ι := ι) st)
      Prog.call DriverOp.commit).Next drivers m (Advanced bus w₀ i (.execute st) m x) := by
  refine next_of_answers fun c => ?_
  have hanswer : m.answer c (.execute st) = x.world.answer c.toChoice (.execute st) := by
    simp only [Machine.answer, World.answer, hw, World.tables_violates]
  have hworking : (m.effect (.execute st)).db.working = (x.world.apply st).tables := by
    rw [World.tables_apply, ← hw]
    rfl
  cases hv : x.world.violates st with
  | true =>
    have hfail : x.world.answer c.toChoice (.execute st) =
        (.error ((c.fault.map Prod.fst).getD (.exception .integrityError "constraint failed")), false) := by
      simp only [World.answer, hv, if_true]
    exact ⟨_, _, hanswer.trans hfail, advances_dropped hs hl hw (refuse_execute ..)⟩
  | false =>
    rw [answer_allowed hv] at hanswer
    rcases strike_cases c.toChoice () with hok | ⟨e, landed, herror⟩
    · refine ⟨_, _, hanswer.trans hok, .inl ⟨?_, .committing hl hv hworking, fun j hj => ?_⟩⟩
      · exact hs.silent (held_not_free hl) rfl (hs.sent.same rfl rfl) rfl
      · exact others_locked hj (fun k => owner_unique hl) (fun k => owner_unique hl) (List.prefix_refl _)
    · refine ⟨_, _, hanswer.trans herror, ?_⟩
      cases landed with
      | false => exact advances_dropped hs hl hw (refuse_execute ..)
      | true =>
        exact .applied (f := some (e, true)) hs hl hv rfl hl hworking (.inl ⟨rfl, e, rfl⟩) ⟨rfl, rfl⟩ rfl

theorem advances_commit {st : Stmt} (hs : Shared bus w₀ m x) (hl : m.lockedBy = some i)
    (hv : x.world.violates st = false) (hw : m.db.working = (x.world.apply st).tables) :
    (leaving i (Prog.call (DriverOp.commit (ι := ι)))).Next drivers m
      (Advanced bus w₀ i (.execute st) m x) := by
  refine next_of_answers fun c => ?_
  rcases strike_cases c.toChoice () with hok | ⟨e, landed, herror⟩
  · refine ⟨_, _, hok, ?_⟩
    exact .applied (f := none) hs hl hv rfl hl hw (.inr hw) ⟨rfl, rfl⟩ rfl
  · refine ⟨_, _, herror, ?_⟩
    cases landed with
    | false => exact .applied (f := some (e, true)) hs hl hv rfl hl hw (.inl ⟨rfl, e, rfl⟩) ⟨rfl, rfl⟩ rfl
    | true => exact .applied (f := some (e, true)) hs hl hv rfl hl hw (.inr hw) ⟨rfl, rfl⟩ rfl

/-- A step of a query, from the moment it has the lock. -/
theorem answers_query {q : Query} {op' : DriverOp ι} {k : Except Exc op'.Resp → Driver ι q.Rows}
    {c : DriverChoice} {a : op'.Resp} (hs : Shared bus w₀ m x) (hl : m.lockedBy = some i)
    (hw : m.db.working = x.world.tables) (hanswer : m.answer c op' = c.strike (.ok a))
    (heffect : m.effect op' = m) (hok : Advanced bus w₀ i (.fetch q) m x m (k (.ok a)))
    (herror : ∀ e, k (.error e) = leaving i (.raise e)) :
    ∃ r landed, m.answer c op' = (r, landed) ∧
      Advanced bus w₀ i (.fetch q) m x (if landed then m.effect op' else m) (k r) := by
  rw [hanswer, heffect]
  simp only [ite_self]
  rcases strike_cases c.toChoice a with h | ⟨e, landed, h⟩
  · exact ⟨_, _, h, hok⟩
  · refine ⟨_, _, h, ?_⟩
    rw [herror]
    exact advances_dropped hs hl hw rfl

theorem others_none (m : Machine ι) (x : History ι) : ∀ j, j ≠ i → Others j m x m x :=
  fun _ _ => others_quiet rfl rfl rfl (List.prefix_refl _)

theorem advances_select {q : Query} (hs : Shared bus w₀ m x) (hl : m.lockedBy = some i)
    (hw : m.db.working = x.world.tables) :
    (leaving i do
      let rows ← Prog.call (DriverOp.select (ι := ι) q)
      Prog.call DriverOp.fetchCursor
      Prog.call DriverOp.closeCursor
      return rows).Next drivers m (Advanced bus w₀ i (.fetch q) m x) := by
  refine next_of_answers fun c => answers_query hs hl hw (a := x.world.rows c.scan q) ?_ rfl ?_ fun _ => rfl
  · rw [← World.tables_rows, ← hw]
    rfl
  · exact .inl ⟨hs, .fetching c.scan hl hw, others_none m x⟩

theorem advances_fetchCursor {q : Query} (scan : List AuditRow → List AuditRow)
    (hs : Shared bus w₀ m x) (hl : m.lockedBy = some i) (hw : m.db.working = x.world.tables) :
    (leaving i do
      Prog.call (DriverOp.fetchCursor (ι := ι))
      Prog.call DriverOp.closeCursor
      return x.world.rows scan q).Next drivers m (Advanced bus w₀ i (.fetch q) m x) :=
  next_of_answers fun _ => answers_query hs hl hw rfl rfl
    (.inl ⟨hs, .closing scan hl hw, others_none m x⟩) fun _ => rfl

theorem advances_closeCursor {q : Query} (scan : List AuditRow → List AuditRow)
    (hs : Shared bus w₀ m x) (hl : m.lockedBy = some i) (hw : m.db.working = x.world.tables) :
    (leaving i do
      Prog.call (DriverOp.closeCursor (ι := ι))
      return x.world.rows scan q).Next drivers m (Advanced bus w₀ i (.fetch q) m x) := by
  refine next_of_answers fun c => answers_query hs hl hw rfl rfl ?_ fun _ => rfl
  refine .happened { scan := scan } (.ok (x.world.rows scan q)) true rfl ?_
    (.releasing hl hw) fun j _ => others_quiet rfl rfl rfl (log_push x i _)
  exact hs.push _ (fun hfree => held_not_free hl hfree) (.inl ⟨rfl, fun ⟨_, _, h⟩ => nomatch h⟩)
    (hs.sent.quiet rfl rfl rfl) fun y hy => .inl hy

/-- The event is out. -/
theorem Sent.publish (h : Sent bus w₀ m x) {channel : String} {event : Event} {e : Answered}
    (he : posts e = [(channel, event)]) (hbus : match bus with
      | .null => m'.recorded = m.recorded ++ [(channel, event)] ∧ m'.delivered = m.delivered
      | .redis => m'.recorded = m.recorded ∧
        ∃ payload, dumps event.dict = .ok payload ∧ m'.delivered = m.delivered ++ [(channel, payload)]) :
    Sent bus w₀ m' (Deployed.push x i e) := by
  refine h.push e ?_
  rw [he]
  have hgot := h.2
  cases bus with
  | null => exact ⟨hbus.1.trans (congrArg (· ++ _) hgot.1), hbus.2.trans hgot.2⟩
  | redis =>
    obtain ⟨hrecorded, payload, hpayload, hdelivered⟩ := hbus
    constructor
    · rw [hdelivered]
      exact List.rel_append hgot.1 (.cons ⟨rfl, hpayload⟩ .nil)
    · intro y hy
      rw [hrecorded] at hy
      exact List.mem_append_left _ (hgot.2 y hy)

theorem advances_record {channel : String} {event : Event} (hnull : bus = .null)
    (hs : Shared bus w₀ m x) (hl : m.lockedBy ≠ some i) :
    (unread do
      Prog.call (DriverOp.record (ι := ι) channel event)
      return 1).Next drivers m (Advanced bus w₀ i (.publish channel event) m x) := by
  subst hnull
  refine next_of_answers fun c => ⟨_, _, rfl, ?_⟩
  refine .happened {} (.ok ()) true rfl ?_ (.ended hl) fun j _ =>
    others_quiet rfl rfl rfl (log_push x i _)
  exact hs.push _ hs.free (.inl ⟨rfl, fun ⟨_, _, h⟩ => nomatch h⟩) (hs.sent.publish rfl ⟨rfl, rfl⟩)
    fun y hy => .inl hy

theorem advances_connect {channel : String} {event : Event} (hredis : bus = .redis)
    (hs : Shared bus w₀ m x) (hl : m.lockedBy ≠ some i) :
    (unread do
      Prog.call (DriverOp.connect (ι := ι))
      let payload ← Prog.call (DriverOp.jsonDumps event.dict)
      let n ← Prog.call (DriverOp.send channel payload)
      Prog.call (DriverOp.record channel event)
      return n).Next drivers m (Advanced bus w₀ i (.publish channel event) m x) := by
  refine next_of_answers fun c => ?_
  have hok : Advanced bus w₀ i (.publish channel event) m x (m.effect .connect) (unread do
      let payload ← Prog.call (DriverOp.jsonDumps event.dict)
      let n ← Prog.call (DriverOp.send channel payload)
      Prog.call (DriverOp.record channel event)
      return n) :=
    .inl ⟨hs.silent hs.free rfl (hs.sent.same rfl rfl) rfl, .encoding hredis hl,
      fun j _ => others_quiet rfl rfl rfl (List.prefix_refl _)⟩
  have hanswer : m.answer c .connect = if m.connected then (.ok (), true) else c.inline := rfl
  cases hc : m.connected with
  | true => exact ⟨.ok (), true, by rw [hanswer, hc, if_pos rfl], hok⟩
  | false =>
    rw [hc, if_neg nofun] at hanswer
    rcases inline_cases c with h | ⟨e, h⟩
    · exact ⟨.ok (), true, hanswer.trans h, hok⟩
    · exact ⟨_, _, hanswer.trans h, .refused hs rfl fun _ _ => .ended hl⟩

theorem advances_encode {channel : String} {event : Event} (hredis : bus = .redis)
    (hs : Shared bus w₀ m x) (hl : m.lockedBy ≠ some i) :
    (unread do
      let payload ← Prog.call (DriverOp.jsonDumps (ι := ι) event.dict)
      let n ← Prog.call (DriverOp.send channel payload)
      Prog.call (DriverOp.record channel event)
      return n).Next drivers m (Advanced bus w₀ i (.publish channel event) m x) := by
  refine next_of_answers fun c => ?_
  obtain ⟨r, landed, hanswer⟩ : ∃ r landed, m.answer c (.jsonDumps event.dict) = (r, landed) := ⟨_, _, rfl⟩
  refine ⟨r, landed, hanswer, ?_⟩
  have heffect : m.effect (.jsonDumps event.dict) = m := rfl
  rw [heffect, ite_self]
  cases r with
  | ok payload =>
    have hpayload : dumps event.dict = .ok payload :=
      dumps_of_ok (c := c.toChoice) (w := m.db.working) (congrArg Prod.fst hanswer)
    exact .inl ⟨hs, .sending hredis hl hpayload, others_none m x⟩
  | error e => exact .refused hs rfl fun _ _ => .ended hl

theorem advances_send {channel : String} {event : Event} {payload : JsonObject} (hredis : bus = .redis)
    (hs : Shared bus w₀ m x) (hl : m.lockedBy ≠ some i) (hpayload : dumps event.dict = .ok payload) :
    (unread do
      let n ← Prog.call (DriverOp.send (ι := ι) channel payload)
      Prog.call (DriverOp.record channel event)
      return n).Next drivers m (Advanced bus w₀ i (.publish channel event) m x) := by
  subst hredis
  refine next_of_answers fun c => ?_
  have hsent (e : Answered) (he : e.op = .publish channel event) (hl' : e.landed = true) :
      Shared .redis w₀ (m.effect (.send channel payload)) (Deployed.push x i e) := by
    obtain ⟨op, r, landed⟩ := e
    cases he
    cases hl'
    exact hs.push _ hs.free (.inl ⟨rfl, fun ⟨_, _, h⟩ => nomatch h⟩)
      (hs.sent.publish rfl ⟨rfl, payload, hpayload, rfl⟩) fun y hy => .inl hy
  rcases strike_cases c.toChoice c.receivers with h | ⟨e, landed, h⟩
  · refine ⟨_, _, h, .happened {} (.ok ()) true rfl (hsent _ rfl rfl) ?_ fun j _ =>
      others_quiet rfl rfl rfl (log_push x i _)⟩
    refine .recording rfl hl ?_
    rw [posted_push]
    exact List.mem_append_right _ (List.mem_singleton_self _)
  · refine ⟨_, _, h, ?_⟩
    cases landed with
    | false => exact .refused hs rfl fun _ _ => .ended hl
    | true =>
      exact .happened { fault := some (e, true) } (.error e) true rfl
        (hsent _ rfl rfl) (.ended hl) fun j _ => others_quiet rfl rfl rfl (log_push x i _)

theorem advances_jsonDumps {d : Dict} (hs : Shared bus w₀ m x) (hl : m.lockedBy ≠ some i) :
    (Prog.call (DriverOp.jsonDumps (ι := ι) d)).Next drivers m (Advanced bus w₀ i (.jsonDumps d) m x) := by
  refine next_of_answers fun c => ?_
  obtain ⟨r, landed, hanswer⟩ : ∃ r landed, m.answer c (.jsonDumps d) = (r, landed) := ⟨_, _, rfl⟩
  refine ⟨r, landed, hanswer, ?_⟩
  have heffect : m.effect (.jsonDumps d) = m := rfl
  rw [heffect, ite_self]
  have hworld : (Deployed.push x i ⟨.jsonDumps d, r, landed⟩).world = x.world := by cases landed <;> rfl
  refine .happened c.toChoice r landed hanswer ?_ (.ended hl) fun j _ =>
    others_quiet rfl rfl (by rw [hworld]) (log_push x i _)
  exact hs.push _ (hworld ▸ hs.free) (.inl ⟨rfl, fun ⟨_, _, h⟩ => nomatch h⟩) (hs.sent.quiet rfl rfl rfl)
    fun y hy => .inl hy

theorem advances_stepFn {state : Dict} (hs : Shared bus w₀ m x) (hl : m.lockedBy ≠ some i) :
    (Prog.call (DriverOp.stepFn i state)).Next drivers m (Advanced bus w₀ i (.stepFn state) m x) := by
  refine next_of_answers fun c => ?_
  obtain ⟨r, landed, hanswer⟩ : ∃ r landed, m.answer c (.stepFn i state) = (r, landed) := ⟨_, _, rfl⟩
  refine ⟨r, landed, hanswer, ?_⟩
  have hworld : (Deployed.push x i ⟨.stepFn state, r, landed⟩).world = x.world := by cases landed <;> rfl
  refine .happened c.toChoice r landed hanswer ?_ ?_ ?_
  · refine hs.push _ ?_ (.inl ⟨?_, fun ⟨_, _, h⟩ => nomatch h⟩) ?_ ?_
    · rw [hworld]
      cases landed <;> exact hs.free
    · cases landed <;> rfl
    · cases landed <;> exact hs.sent.quiet rfl rfl rfl
    · intro y hy
      cases landed with
      | false => exact .inl hy
      | true =>
        rcases List.mem_append.mp hy with hy | hy
        · exact .inl hy
        · rw [List.mem_singleton.mp hy]
          exact .inr ⟨rfl, rfl⟩
  · refine .ended ?_
    cases landed <;> exact hl
  · intro j _
    refine others_quiet ?_ ?_ (by rw [hworld]) (log_push x i _) <;> cases landed <;> rfl

theorem begins_publish {channel : String} {event : Event} (hs : Shared bus w₀ m x) (hl : m.lockedBy ≠ some i) :
    (behind bus i (.publish channel event)).Next drivers m
      (Advanced bus w₀ i (.publish channel event) m x) := by
  cases bus with
  | null => exact advances_record rfl hs hl
  | redis => exact advances_connect rfl hs hl

theorem before_advances {op : Op} {q : Driver ι op.Resp} (hs : Shared bus w₀ m x) (h : Before bus i op q m x) :
    q.Next drivers m (Advanced bus w₀ i op m x) := by
  cases h with
  | fresh hl =>
    cases op with
    | jsonDumps d => exact advances_jsonDumps hs hl
    | fetch q => exact advances_locked hs hl (fun _ => rfl) fun _ => .selecting
    | execute st => exact advances_locked hs hl (fun e => refuse_execute _ e st) fun _ => .executing
    | publish channel event => exact begins_publish hs hl
    | stepFn state => exact advances_stepFn hs hl
  | executing hl hw => exact advances_execute hs hl hw
  | committing hl hv hw => exact advances_commit hs hl hv hw
  | selecting hl hw => exact advances_select hs hl hw
  | fetching scan hl hw => exact advances_fetchCursor scan hs hl hw
  | closing scan hl hw => exact advances_closeCursor scan hs hl hw
  | encoding hbus hl => exact advances_encode hbus hs hl
  | sending hbus hl hd => exact advances_send hbus hs hl hd

theorem after_completes {op : Op} {r : Except Exc op.Resp} {q : Driver ι op.Resp} (hs : Shared bus w₀ m x)
    (h : After bus w₀ i op r q m x) : (q.outcome = some r ∧ m.lockedBy ≠ some i) ∨
      q.Next drivers m fun m' rest => Shared bus w₀ m' x ∧ After bus w₀ i op r rest m' x ∧
        ∀ j, j ≠ i → Others j m x m' x := by
  cases h with
  | ended hl => exact .inl ⟨by cases r <;> rfl, hl⟩
  | releasing hl hw =>
    right
    refine next_of_answers fun c => ⟨_, _, rfl, ?_⟩
    refine ⟨hs.silent (fun _ => hw) rfl (hs.sent.same rfl rfl) rfl, .ended nofun, fun j hj => ?_⟩
    exact others_locked hj (fun k => owner_unique hl) nofun (List.prefix_refl _)
  | @recording channel event n _ _ hbus hl hpost =>
    right
    subst hbus
    refine next_of_answers fun c => ⟨_, _, rfl, ?_⟩
    refine ⟨hs.silent hs.free rfl ?_ rfl, .ended hl,
      fun j _ => others_quiet rfl rfl rfl (List.prefix_refl _)⟩
    obtain ⟨hpublished, hdelivered, hrecorded⟩ := hs.sent
    refine ⟨hpublished, hdelivered, fun y hy => ?_⟩
    rcases List.mem_append.mp hy with hy | hy
    · exact hrecorded y hy
    · rw [List.mem_singleton.mp hy]
      exact hpost

end Steps

/-- A task that has the lock is not waiting for it. -/
theorem Before.goes_on {bus : EventBus} {i : ι} {op : Op} {q : Driver ι op.Resp} {m : Machine ι}
    {x : History ι} (h : Before bus i op q m x) (hl : m.lockedBy = some i) :
    ∃ op', q.awaits = some op' ∧ ∀ j, op' ≠ .acquire j := by
  cases h with
  | fresh hn => exact absurd hl hn
  | encoding _ hn => exact absurd hl hn
  | sending _ hn => exact absurd hl hn
  | _ => exact ⟨_, rfl, nofun⟩

theorem After.goes_on {bus : EventBus} {w₀ : World} {i : ι} {op : Op} {r : Except Exc op.Resp}
    {q : Driver ι op.Resp} {m : Machine ι} {x : History ι} (h : After bus w₀ i op r q m x)
    (hl : m.lockedBy = some i) : ∃ op', q.awaits = some op' ∧ ∀ j, op' ≠ .acquire j := by
  cases h with
  | releasing => exact ⟨_, rfl, nofun⟩
  | ended hn => exact absurd hl hn
  | recording _ hn => exact absurd hl hn

/-- The drivers against the store and the bus. -/
def simulation (bus : EventBus) (w₀ : World) : Simulation interp drivers (behind (ι := ι) bus) where
  shared := Shared bus w₀
  idle i m _ := m.lockedBy ≠ some i
  before := Before bus
  after := After bus w₀
  others := Others
  stable_idle h := h.kept
  stable_before h := h.before
  stable_after h := h.after
  begins _ hl := .fresh hl
  advances := before_advances
  completes := after_completes

section Runs

variable [DecidableEq ι] {bus : EventBus} {ops : ι → Operation} {file : World} {s' : Deployment ι}
  {s : Stack ι}

omit [DecidableEq ι] in
theorem related_boot (bus : EventBus) (ops : ι → Operation) (file : World) :
    (simulation bus file).Related (deploy bus ops file) (start ops file) where
  shared := {
    replayed := rfl
    free := fun _ => rfl
    durable := ⟨[], [], rfl, rfl, List.forall_mem_nil _⟩
    sent := ⟨(List.append_nil _).symm, got_nothing bus rfl rfl⟩
    stepped := List.forall_mem_nil _ }
  follows _ := .idle _ nofun

/-- The system at `s` has ended the same calls in the same way, the connection
sees its tables whenever the lock is free, and the bus got its events. -/
structure Mirrors (bus : EventBus) (file : World) (s' : Deployment ι) (s : Stack ι) : Prop where
  ended : ∀ i r, (s'.task i).outcome = some r → outcomeOf s i = some r
  visible : s'.world.lockedBy = none → s'.world.db.working = s.world.tables
  sent : Sent bus file s'.world s.past

omit [DecidableEq ι] in
theorem outcomeOf_of_outcome {i : ι} {r : Except Exc Reply} (h : (s.task i).outcome = some r) :
    outcomeOf s i = some r := by
  unfold outcomeOf
  cases ht : s.task i <;> rw [ht] at h <;> exact h

omit [DecidableEq ι] in
theorem mirrors_of_related (h : (simulation bus file).Related s' s) : Mirrors bus file s' s :=
  ⟨fun _ _ hr => outcomeOf_of_outcome (h.outcome hr), h.shared.free, h.shared.sent⟩

/-- Every run of a deployment, with all interleavings of its calls on the
drivers and any of them failing or cancelled, mirrors a run of the system in
which every call of the store and of the bus is one step. -/
theorem deployment_mirrors (bus : EventBus) (ops : ι → Operation) (file : World) (s' : Deployment ι)
    (h : Drivers.Reach (deploy bus ops file) s') :
    ∃ s, System.Reach Anyhow (start ops file) s ∧ Mirrors bus file s' s := by
  obtain ⟨s, hs, hrelated⟩ := (related_boot bus ops file).reach h
  exact ⟨s, hs, mirrors_of_related hrelated⟩

/-- One invocation on Redis, up to its first checkpoint. -/
theorem lone_run : ∃ s', Drivers.Reach (deploy .redis (single 1) World.empty) s' ∧
    s'.world.stepped.length = 1 ∧ s'.world.delivered.length = 2 ∧
      (s'.world.db.committed.checkpoints "t").length = 1 :=
  Pool.Reach.exists_of_exec drivers Unforced (deploy .redis (single 1) World.empty)
    (List.replicate 38 (0, smooth)) (by decide)

theorem deployment_mirrors_lone : ∃ s' s, Drivers.Reach (deploy .redis (single 1) World.empty) s' ∧
    s'.world.delivered.length = 2 ∧ System.Reach Anyhow (start (single 1) World.empty) s ∧
    Mirrors .redis World.empty s' s := by
  obtain ⟨s', h, _, hdelivered, _⟩ := lone_run
  obtain ⟨s, hs, hmirrors⟩ := deployment_mirrors .redis (single 1) World.empty s' h
  exact ⟨s', s, h, hdelivered, hs, hmirrors⟩

/-- The lock is never left behind: in every state of every run, also after
exceptions and cancellations at any call, the task that has it is still in a call
of the database and its next step does not wait for anyone. -/
theorem lock_holder_goes_on (bus : EventBus) (ops : ι → Operation) (file : World) (s' : Deployment ι)
    (h : Drivers.Reach (deploy bus ops file) s') (i : ι) (hl : s'.world.lockedBy = some i) :
    ∃ op, (s'.task i).awaits = some op ∧ ∀ j, op ≠ .acquire j := by
  obtain ⟨s, _, hrelated⟩ := (related_boot bus ops file).reach h
  rcases (hrelated.follows i).cases hrelated.shared with ⟨_, _, _, hidle⟩ | hinside
  · exact absurd hl hidle
  · generalize s'.task i = p' at hinside ⊢
    generalize s.task i = p at hinside
    cases hinside with
    | before op k op' m hbefore => exact hbefore.goes_on hl
    | after op k r op' m hafter => exact hafter.goes_on hl

end Runs

end NoblePort.Deployed
