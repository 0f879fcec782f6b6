import NoblePort.Lifespan

/-!
# Starting and stopping

What each piece of `lifespan` leaves of the singletons, whichever of its awaits
fails: nothing that is open is ever without a singleton to which it belongs.
-/
namespace NoblePort.Lifespan

open Coroutine NoblePort.Values
open NoblePort.Startup (Start Entered Chance Await)

/-- What is open belongs to the singletons, but for what an await opened before it
raised, and so does what the supervisor holds. -/
structure Owned (w : World) : Prop where
  connection : ∀ id ∈ w.live, id ∉ w.orphans → w.startup.db = some id ∧ w.startup.connected id = true
  client : ∀ id, w.liveClient id = true → w.bus = some id ∧ w.hasClient id = true
  supervisor : ∀ d b, w.supervisor = some (d, b) → w.startup.db = some d ∧ w.bus = some b

/-- All three singletons are there, and the supervisor holds the other two. -/
structure Up (d b : Nat) (w : World) : Prop where
  owned : Owned w
  db : w.startup.db = some d
  bus : w.bus = some b
  supervisor : w.supervisor = some (d, b)

/-- Nothing but such orphans is open, and no singleton is left. -/
structure Clean (w : World) : Prop where
  connection : ∀ id ∈ w.live, id ∈ w.orphans
  client : ∀ id, w.liveClient id = false
  db : w.startup.db = none
  bus : w.bus = none
  supervisor : w.supervisor = none

section Effects

variable {reprOf : String → String} {w : World} {d b : Nat}

/-- A flag of the entry `id` after the entry `k` has changed. -/
theorem any_modify {A : Type} {xs : List A} {f : A → Bool} {g : A → A} {k id : Nat}
    (h : (xs.modify k g)[id]?.any f = true) :
    ∃ x, xs[id]? = some x ∧ f (if k = id then g x else x) = true := by
  obtain ⟨y, hy, hf⟩ := (Option.any_eq_true _ _).mp h
  rw [List.getElem?_modify] at hy
  obtain ⟨x, hx, rfl⟩ := Option.map_eq_some_iff.mp hy
  exact ⟨x, hx, hf⟩

theorem any_modify_of {A : Type} {xs : List A} {f : A → Bool} {g : A → A} {k id : Nat} {x : A}
    (hx : xs[id]? = some x) (hf : f (if k = id then g x else x) = true) :
    (xs.modify k g)[id]?.any f = true := by
  refine (Option.any_eq_true _ _).mpr ⟨_, ?_, hf⟩
  rw [List.getElem?_modify, hx]
  rfl

theorem connected_effect (a : Await) (db : Startup.Database) :
    (a.effect db).connected = (a.opens || db.connected) := by
  cases a with
  | commit stmt => cases stmt <;> rfl
  | release stmt => cases stmt <;> rfl
  | _ => rfl

/-- `_db` is the `Database` that the running call of `get_database` has made. -/
structure Making (id : Nat) (w : World) : Prop where
  owned : Owned w
  db : w.startup.db = some id
  made : id < w.startup.heap.length

theorem making_on {id : Nat} (h : Making id w) (a : Await) :
    Making id (effect reprOf w (.database (.on id a))) := by
  have hconnected (k : Nat) (hk : w.startup.connected k = true) :
      (w.startup.heap.modify id a.effect)[k]?.any Startup.Database.connected = true := by
    obtain ⟨x, hx, hf⟩ := (Option.any_eq_true _ _).mp hk
    refine any_modify_of hx ?_
    split
    · rw [connected_effect, hf, Bool.or_true]
    · exact hf
  have hnew (ha : a.opens = true) :
      (w.startup.heap.modify id a.effect)[id]?.any Startup.Database.connected = true := by
    refine any_modify_of (List.getElem?_eq_getElem h.made) ?_
    rw [if_pos rfl, connected_effect, ha, Bool.true_or]
  have hmade : id < (w.startup.heap.modify id a.effect).length := by
    rw [List.length_modify]
    exact h.made
  cases ha : a.opens with
  | false =>
    have heffect : effect reprOf w (.database (.on id a)) =
        { w with startup := { w.startup with heap := w.startup.heap.modify id a.effect } } := by
      simp only [effect, Startup.effect, ha, Bool.false_eq_true, if_false]
    rw [heffect]
    refine ⟨⟨fun k hk hheld => ?_, h.owned.client, h.owned.supervisor⟩, h.db, hmade⟩
    obtain ⟨hdb, hk⟩ := h.owned.connection k hk hheld
    exact ⟨hdb, hconnected k hk⟩
  | true =>
    have heffect : effect reprOf w (.database (.on id a)) =
        { w with startup := { w.startup with heap := w.startup.heap.modify id a.effect }
                 live := w.live.insert id } := by
      simp only [effect, Startup.effect, ha, if_true]
    rw [heffect]
    refine ⟨⟨fun k hk hheld => ?_, h.owned.client, h.owned.supervisor⟩, h.db, hmade⟩
    rcases List.mem_insert_iff.mp hk with rfl | hk
    · exact ⟨h.db, hnew ha⟩
    · obtain ⟨hdb, hk⟩ := h.owned.connection k hk hheld
      exact ⟨hdb, hconnected k hk⟩

theorem making_orphan {id k : Nat} (h : Making id w) :
    Making id { w with live := w.live.insert k, orphans := w.orphans ++ [k] } := by
  refine ⟨⟨fun id' hid hheld => ?_, h.owned.client, h.owned.supervisor⟩, h.db, h.made⟩
  have hold : id' ∉ w.orphans := fun hmem => hheld (List.mem_append_left _ hmem)
  rcases List.mem_insert_iff.mp hid with rfl | hid
  · exact absurd (List.mem_append_right _ (List.mem_singleton_self _)) hheld
  · exact h.owned.connection id' hid hold

/-- Before there is a `Database` nothing is connected and no supervisor holds one. -/
theorem owned_enter (h : Owned w) : Owned (effect reprOf w (.database .enter)) := by
  have heffect : effect reprOf w (.database .enter) =
      { w with startup := Startup.effect reprOf w.startup .enter } := rfl
  rw [heffect]
  cases hdb : w.startup.db with
  | some id =>
    have hsame : Startup.effect reprOf w.startup .enter = w.startup := by
      simp only [Startup.effect, hdb]
    rwa [hsame]
  | none =>
    have hnone (id : Nat) (hid : id ∈ w.live) (hheld : id ∉ w.orphans) : False := by
      have hsome := (h.connection id hid hheld).1
      rw [hdb] at hsome
      cases hsome
    have hsole (d b : Nat) : w.supervisor ≠ some (d, b) := fun hd => by
      have hsome := (h.supervisor d b hd).1
      rw [hdb] at hsome
      cases hsome
    exact ⟨fun id hid hheld => (hnone id hid hheld).elim, h.client, fun d b hd => absurd hd (hsole d b)⟩

theorem owned_getEventBus (h : Owned w) : Owned (effect reprOf w .getEventBus) := by
  cases hbus : w.bus with
  | some id => simpa only [effect, hbus] using h
  | none =>
    have hdead (id : Nat) : w.liveClient id = false := by
      refine Bool.eq_false_iff.mpr fun hid => ?_
      have hsome := (h.client id hid).1
      rw [hbus] at hsome
      cases hsome
    simp only [effect, hbus]
    refine ⟨h.connection, fun id hid => ?_, fun d b hd => ?_⟩
    · obtain ⟨x, hx, hlive⟩ := (Option.any_eq_true _ _).mp hid
      rw [List.getElem?_append] at hx
      split at hx
      · have hold : w.liveClient id = true := (Option.any_eq_true _ _).mpr ⟨x, hx, hlive⟩
        rw [hdead id] at hold
        cases hold
      · rw [List.getElem?_singleton] at hx
        split at hx
        · cases hx
          cases hlive
        · cases hx
    · have hsome := (h.supervisor d b hd).2
      rw [hbus] at hsome
      cases hsome

/-- One bus changes, and if it then has a client to close it is the singleton and knows the client. -/
theorem owned_bus (h : Owned w) (id : Nat) (g : Bus → Bus) (hg : ∀ x, w.buses[id]? = some x →
    (g x).live = true → w.bus = some id ∧ (g x).client = true) :
    Owned { w with buses := w.buses.modify id g } := by
  refine ⟨h.connection, fun k hk => ?_, h.supervisor⟩
  obtain ⟨x, hx, hlive⟩ := any_modify hk
  by_cases hid : id = k
  · subst hid
    rw [if_pos rfl] at hlive
    obtain ⟨hbus, hclient⟩ := hg x hx hlive
    exact ⟨hbus, any_modify_of hx (by rwa [if_pos rfl])⟩
  · rw [if_neg hid] at hlive
    obtain ⟨hbus, hclient⟩ := h.client k ((Option.any_eq_true _ _).mpr ⟨x, hx, hlive⟩)
    obtain ⟨x', hx', hhas⟩ := (Option.any_eq_true _ _).mp hclient
    exact ⟨hbus, any_modify_of hx' (by rwa [if_neg hid])⟩

theorem owned_closeClient (h : Owned w) (id : Nat) : Owned (effect reprOf w (.closeClient id)) :=
  owned_bus h id _ fun _ _ hlive => nomatch hlive

theorem owned_send (h : Owned w) {id : Nat} (hbus : w.bus = some id) :
    Owned (effect reprOf w (.send id)) := by
  refine owned_bus h id _ fun x hx hlive => ⟨hbus, ?_⟩
  split
  · rfl
  · rename_i hredis
    rw [if_neg hredis] at hlive
    obtain ⟨x', hx', hhas⟩ :=
      (Option.any_eq_true _ _).mp (h.client id ((Option.any_eq_true _ _).mpr ⟨x, hx, hlive⟩)).2
    rw [hx] at hx'
    cases hx'
    exact hhas

/-- A client is forgotten once it is closed. -/
theorem owned_dropClient (h : Owned w) {id : Nat} (hdead : w.liveClient id = false) :
    Owned (effect reprOf w (.dropClient id)) := by
  refine owned_bus h id _ fun x hx hlive => ?_
  have hid : w.liveClient id = true := (Option.any_eq_true _ _).mpr ⟨x, hx, hlive⟩
  rw [hdead] at hid
  cases hid

theorem owned_dropBus (h : Owned w) (hdead : ∀ id, w.liveClient id = false) (hsup : w.supervisor = none) :
    Owned (effect reprOf w .dropBus) := by
  refine ⟨h.connection, fun k hk => ?_, fun d b hd => ?_⟩
  · have hk' : w.liveClient k = true := hk
    rw [hdead k] at hk'
    cases hk'
  · have hd' : w.supervisor = some (d, b) := hd
    rw [hsup] at hd'
    cases hd'

theorem owned_closeConnection (h : Owned w) (id : Nat) : Owned (effect reprOf w (.closeConnection id)) :=
  ⟨fun k hk hheld => h.connection k (List.mem_filter.mp hk).1 hheld, h.client, h.supervisor⟩

end Effects

section Programs

variable (reprOf : String → String)

/-- A program by itself, from what it starts with: the world is observed, and
at each of its awaits what is open is owned. -/
def lived : Contract Op Op.Resp Exc World where
  observe w e := after reprOf w e
  rely w e := ∃ c, e = (interp reprOf).entry c w e.op
  guarantee w _ := Owned w

variable {reprOf} {w : World} {d b : Nat}

theorem entry_eq {c : Chance} {op : Op} {r : Except Exc op.Resp} {landed : Bool}
    (h : answer reprOf c w op = (r, landed)) : (interp reprOf).entry c w op = ⟨op, r, landed⟩ := by
  rw [Interp.entry, show (interp reprOf).answer c w op = (r, landed) from h]

theorem observe_ok (op : Op) (v : op.Resp) :
    (lived reprOf).observe w ⟨op, .ok v, true⟩ = effect reprOf w op := by
  cases op with
  | database op => cases op <;> rfl
  | _ => rfl

/-- Only `get_database` opens anything that something else is to hold. -/
theorem after_eq {e : Entry Op Op.Resp Exc} (h : ∀ id a, e.op ≠ .database (.on id a)) :
    after reprOf w e = (interp reprOf).settle w e := by
  obtain ⟨op, r, landed⟩ := e
  cases op with
  | database op =>
    cases op with
    | enter => rfl
    | on id a => exact absurd rfl (h id a)
  | _ => rfl

/-- A piece that cannot fail. -/
theorem wp_sync {op : Op} {v : op.Resp} {Q : World → Except Exc op.Resp → Prop} (hw : Owned w)
    (h : ∀ c, answer reprOf c w op = (.ok v, true)) (hQ : Q (effect reprOf w op) (.ok v)) :
    (lived reprOf).wp (.call op) Q w := by
  rw [Contract.wp_call]
  refine ⟨hw, ?_⟩
  rintro r landed ⟨c, hc⟩
  rw [entry_eq (h c)] at hc
  cases hc
  rwa [observe_ok]

/-- An await that closes something. -/
theorem wp_closing {op : Op} {v : op.Resp} {Q : World → Except Exc op.Resp → Prop} (hw : Owned w)
    (hop : ∀ id a, op ≠ .database (.on id a))
    (h : ∀ c, answer reprOf c w op = (.ok v, true) ∨ ∃ e landed, answer reprOf c w op = (.error e, landed))
    (hok : Q (effect reprOf w op) (.ok v))
    (herror : ∀ e, Q w (.error e) ∧ Q (effect reprOf w op) (.error e)) :
    (lived reprOf).wp (.call op) Q w := by
  rw [Contract.wp_call]
  refine ⟨hw, ?_⟩
  rintro r landed ⟨c, hc⟩
  have hsettle (r : Except Exc op.Resp) (landed : Bool) : (lived reprOf).observe w ⟨op, r, landed⟩ =
      (interp reprOf).settle w ⟨op, r, landed⟩ := after_eq hop
  rcases h c with hanswer | ⟨e, landed', hanswer⟩
  · rw [entry_eq hanswer] at hc
    cases hc
    rwa [observe_ok]
  · rw [entry_eq hanswer] at hc
    cases hc
    rw [hsettle]
    cases landed with
    | false => exact (herror e).1
    | true => exact (herror e).2

theorem strike_cases (c : Chance) : strike c = (.ok (), true) ∨ ∃ e landed, strike c = (.error e, landed) := by
  unfold strike
  cases c.fault with
  | none => exact .inl rfl
  | some e => exact .inr ⟨e, c.landed, rfl⟩

/-- The calls on one `Database`. -/
def touches (id : Nat) : Contract Startup.Op Startup.Op.Resp Exc Unit where
  observe _ _ := ()
  rely _ _ := True
  guarantee _ op := ∃ a, op = .on id a

theorem touches_on (id : Nat) (a : Await) : (touches id).Keeps (fun _ => True) (Startup.Database.on id a) :=
  .call (fun _ _ => ⟨a, rfl⟩) fun _ _ _ _ _ => trivial

theorem touches_connect (id : Nat) (dialect : Store.Dialect) :
    (touches id).Keeps (fun _ => True) (Startup.Database.connect id dialect) := by
  cases dialect with
  | sqlite => exact .bind (touches_on id _) fun _ => .bind (touches_on id _) fun _ => touches_on id _
  | postgres => exact touches_on id _

theorem touches_execute (id : Nat) (dialect : Store.Dialect) (stmt : Startup.Ddl) :
    (touches id).Keeps (fun _ => True) (Startup.Database.execute id dialect stmt) := by
  cases dialect with
  | sqlite => exact .bind (touches_on id _) fun _ => touches_on id _
  | postgres =>
    refine .bind (touches_on id _) fun _ => ⟨fun s hs => ?_⟩
    rw [Contract.wp_bind, Contract.wp_attempt]
    refine Contract.wp_mono _ _ _ (fun s r _ => ?_) ((touches_on id _).wp s hs)
    cases r with
    | ok u => exact (touches_on id (.release (some stmt))).wp s trivial
    | error e => exact (Contract.Keeps.bind (touches_on id (.release none)) fun _ => .raise e).wp s trivial

theorem touches_migrate (id : Nat) (dialect : Store.Dialect) :
    (touches id).Keeps (fun _ => True) (Startup.Database.migrate id dialect) := by
  unfold Startup.Database.migrate
  induction Startup.schema dialect with
  | nil => exact .ret ()
  | cons stmt stmts ih => exact .bind (touches_execute id dialect stmt) fun _ => ih

/-- A new `Database` stays the singleton while it is connected and migrated. -/
theorem wp_making {α : Type} {id : Nat} {R : Except Exc α → Prop} (p : Start α)
    (hp : (touches id).wp p (fun _ r => R r) ()) (hw : Making id w) :
    (lived reprOf).wp (lift p) (fun w r => Making id w ∧ R r) w := by
  induction p generalizing w with
  | ret a => exact ⟨hw, hp⟩
  | raise e => exact ⟨hw, hp⟩
  | await op k ih =>
    obtain ⟨⟨a, rfl⟩, hk⟩ := hp
    refine ⟨hw.owned, fun r landed _ => ih r (hk r landed trivial) ?_⟩
    change Making id (after reprOf w ⟨.database (.on id a), r, landed⟩)
    unfold after
    cases orphan (⟨.database (.on id a), r, landed⟩ : Entry Op Op.Resp Exc) with
    | some k => exact making_orphan hw
    | none =>
      cases landed with
      | false => exact hw
      | true => exact making_on hw a

/-- `get_database` gives the singleton. -/
def Got (w : World) (r : Except Exc Nat) : Prop := Owned w ∧ ∀ id, r = .ok id → w.startup.db = some id

theorem enter_cases (reprOf : String → String) (c : Chance) (w : World) :
    (∃ id, w.startup.db = some id ∧ answer reprOf c w (.database .enter) = (.ok (.existing id), true)) ∨
    (w.startup.db = none ∧ ∃ e, answer reprOf c w (.database .enter) = (.error e, false)) ∨
    ∃ dialect, w.startup.db = none ∧
      answer reprOf c w (.database .enter) = (.ok (.created w.startup.heap.length dialect), true) ∧
      Startup.Database.init reprOf w.startup.url = .ok dialect := by
  unfold answer Startup.answer
  cases w.startup.db with
  | some id => exact .inl ⟨id, rfl, rfl⟩
  | none =>
    right
    cases c.fault with
    | some e => exact .inl ⟨rfl, e, rfl⟩
    | none =>
      cases Startup.Database.init reprOf w.startup.url with
      | error e => exact .inl ⟨rfl, e, rfl⟩
      | ok dialect => exact .inr ⟨dialect, rfl, rfl, rfl⟩

theorem wp_getDatabase (hw : Owned w) : (lived reprOf).wp getDatabase Got w := by
  refine ⟨hw, ?_⟩
  rintro r landed ⟨c, hc⟩
  rcases enter_cases reprOf c w with ⟨id, hdb, hanswer⟩ | ⟨hdb, e, hanswer⟩ |
    ⟨dialect, hdb, hanswer, hinit⟩
  · rw [entry_eq hanswer] at hc
    cases hc
    have hsame : (effect reprOf w (.database .enter)).startup.db = some id := by
      simp only [effect, Startup.effect, hdb]
    refine ⟨owned_enter hw, ?_⟩
    rintro id' ⟨⟩
    exact hsame
  · rw [entry_eq hanswer] at hc
    cases hc
    exact ⟨hw, fun id hid => by cases hid⟩
  · rw [entry_eq hanswer] at hc
    cases hc
    have hnew : Startup.effect reprOf w.startup .enter = { w.startup with
        heap := w.startup.heap ++ [{ dialect }], db := some w.startup.heap.length } := by
      simp only [Startup.effect, hdb, hinit]
    have hmaking : Making w.startup.heap.length (effect reprOf w (.database .enter)) := by
      refine ⟨owned_enter hw, ?_, ?_⟩
      · change (Startup.effect reprOf w.startup .enter).db = _
        rw [hnew]
      · change _ < (Startup.effect reprOf w.startup .enter).heap.length
        rw [hnew, List.length_append]
        exact Nat.lt_succ_self _
    have hmade : (touches w.startup.heap.length).wp (do
        Startup.Database.connect w.startup.heap.length dialect
        Startup.Database.migrate w.startup.heap.length dialect
        return w.startup.heap.length)
        (fun _ r => ∀ id, r = .ok id → id = w.startup.heap.length) () := by
      refine Contract.wp_seq _ _ _ _ ((touches_connect _ dialect).wp () trivial) (fun _ _ _ => ?_)
        fun _ _ _ _ h => by cases h
      refine Contract.wp_seq _ _ _ _ ((touches_migrate _ dialect).wp () trivial) (fun _ _ _ => ?_)
        fun _ _ _ _ h => by cases h
      rintro id ⟨⟩
      rfl
    refine Contract.wp_mono _ _ _ (fun w r hr => ⟨hr.1.owned, fun id hid => ?_⟩) (wp_making _ hmade hmaking)
    rw [hr.2 id hid]
    exact hr.1.db

theorem wp_getEventBus {Q : World → Except Exc Nat → Prop} (hw : Owned w) (hQ : ∀ w' b, Owned w' →
    w'.startup = w.startup → w'.supervisor = w.supervisor → w'.bus = some b → Q w' (.ok b)) :
    (lived reprOf).wp getEventBus Q w := by
  refine wp_sync (v := w.bus.getD w.buses.length) hw (fun c => rfl) (hQ _ _ (owned_getEventBus hw) ?_ ?_ ?_)
  all_goals cases hbus : w.bus <;> simp only [effect, hbus, Option.getD]

/-- `get_supervisor` gives one that holds the two singletons. -/
theorem wp_getSupervisor (hw : Owned w) : (lived reprOf).wp getSupervisor
    (fun w r => match r with
      | .ok (d, b) => Up d b w
      | .error _ => Owned w) w := by
  unfold getSupervisor
  rw [Contract.wp_bind]
  refine wp_sync (v := w.supervisor) hw (fun c => rfl) ?_
  cases hsup : w.supervisor with
  | some pair =>
    obtain ⟨hdb, hbus⟩ := hw.supervisor pair.1 pair.2 hsup
    exact ⟨hw, hdb, hbus, hsup⟩
  | none =>
    refine Contract.wp_seq _ _ _ _ (wp_getDatabase hw) (fun w' d hgot => ?_) fun w' e hgot => hgot.1
    rw [Contract.wp_bind]
    refine wp_getEventBus hgot.1 fun w'' b hw'' hstartup _ hbus => ?_
    have hdb : w''.startup.db = some d := hstartup ▸ hgot.2 d rfl
    refine (Contract.wp_bind _ _ _ _ _).mpr (wp_sync (v := ()) hw'' (fun c => rfl) ?_)
    refine ⟨⟨hw''.connection, hw''.client, ?_⟩, hdb, hbus, rfl⟩
    rintro d' b' ⟨⟩
    exact ⟨hdb, hbus⟩

/-- The start ends with everything up, or it raises and loses nothing. -/
def Started (w : World) : Except Exc Unit → Prop
  | .ok _ => ∃ d b, Up d b w
  | .error _ => Owned w

theorem wp_startup (hw : Owned w) : (lived reprOf).wp startup Started w := by
  refine Contract.wp_seq _ _ _ _ (wp_getDatabase hw) (fun w' d hgot => ?_) fun w' e hgot => hgot.1
  rw [Contract.wp_bind]
  refine wp_getEventBus hgot.1 fun w'' b hw'' _ _ _ => ?_
  refine Contract.wp_seq _ _ _ _ (wp_getSupervisor hw'') ?_ fun w e hw => hw
  rintro w ⟨d, b⟩ hup
  exact ⟨d, b, hup⟩

/-- On the way down: the supervisor is gone, and `_db` is still there. -/
structure Halting (d : Nat) (w : World) : Prop where
  owned : Owned w
  supervisor : w.supervisor = none
  db : w.startup.db = some d

theorem dead_closeClient (w : World) (b : Nat) : (effect reprOf w (.closeClient b)).liveClient b = false := by
  refine Bool.eq_false_iff.mpr fun hlive => ?_
  obtain ⟨x, _, hx⟩ := any_modify hlive
  rw [if_pos rfl] at hx
  cases hx

theorem halting_closeClient (h : Halting d w) (b : Nat) : Halting d (effect reprOf w (.closeClient b)) :=
  ⟨owned_closeClient h.owned b, h.supervisor, h.db⟩

/-- `aclose` and `close` of the client, and their failures. -/
theorem wp_closeClient {op : Op} {v : op.Resp} (h : Halting d w) (hbus : w.bus = some b)
    (hquiet : ∀ id a, op ≠ .database (.on id a))
    (hop : ∀ c, answer reprOf c w op = (.ok v, true) ∨ ∃ e landed, answer reprOf c w op = (.error e, landed))
    (heffect : effect reprOf w op = effect reprOf w (.closeClient b)) :
    (lived reprOf).wp (.call op) (fun w r => (Halting d w ∧ w.bus = some b) ∧
      ∀ v, r = .ok v → w.liveClient b = false) w := by
  refine wp_closing h.owned hquiet hop ?_ fun e => ⟨⟨⟨h, hbus⟩, nofun⟩, ?_⟩ <;> rw [heffect]
  · exact ⟨⟨halting_closeClient h b, hbus⟩, fun _ _ => dead_closeClient w b⟩
  · exact ⟨⟨halting_closeClient h b, hbus⟩, nofun⟩

theorem wp_closeBus (h : Halting d w) (hbus : w.bus = some b) : (lived reprOf).wp (RedisEventBus.close b)
    (fun w r => Halting d w ∧ ∀ u, r = .ok u → w.bus = some b ∧ w.liveClient b = false) w := by
  unfold RedisEventBus.close
  refine Contract.wp_seq (R := fun w r => (Halting d w ∧ w.bus = some b) ∧
    ∀ u, r = .ok u → w.liveClient b = false) _ _ _ _ ?_ ?_ fun w e hw => ⟨hw.1.1, nofun⟩
  · refine Contract.wp_tryExcept _ _ _ _ (wp_closeClient h hbus nofun strike_cases rfl) (fun w a hw => hw) ?_
    intro w e hw
    split
    · exact wp_closeClient hw.1.1 hw.1.2 nofun strike_cases rfl
    · exact ⟨hw.1, nofun⟩
  · intro w u hw
    have hdead := hw.2 u rfl
    have hhalting : Halting d (effect reprOf w (.dropClient b)) :=
      ⟨owned_dropClient hw.1.1.owned hdead, hw.1.1.supervisor, hw.1.1.db⟩
    refine wp_sync (v := ()) hw.1.1.owned (fun c => rfl) ⟨hhalting, fun u _ => ⟨hw.1.2, ?_⟩⟩
    refine Bool.eq_false_iff.mpr fun hlive => ?_
    obtain ⟨x, hx, hlive⟩ := any_modify hlive
    have hold : w.liveClient b = true := (Option.any_eq_true _ _).mpr ⟨x, hx, by split at hlive <;> exact hlive⟩
    rw [hdead] at hold
    cases hold

/-- The bus is gone, with every client closed. -/
def Silent (d : Nat) (w : World) : Prop := Halting d w ∧ w.bus = none ∧ ∀ id, w.liveClient id = false

theorem wp_dropBus (h : Halting d w) (hbus : w.bus = some b) (hdead : w.liveClient b = false) :
    (lived reprOf).wp (.call .dropBus) (fun w r => Halting d w ∧ ∀ u, r = .ok u → Silent d w) w := by
  have hall (id : Nat) : w.liveClient id = false := by
    refine Bool.eq_false_iff.mpr fun hlive => ?_
    have hid := (h.owned.client id hlive).1
    rw [hbus] at hid
    cases hid
    rw [hdead] at hlive
    cases hlive
  have hhalting : Halting d (effect reprOf w .dropBus) :=
    ⟨owned_dropBus h.owned hall h.supervisor, h.supervisor, h.db⟩
  exact wp_sync (v := ()) h.owned (fun c => rfl) ⟨hhalting, fun _ _ => ⟨hhalting, rfl, hall⟩⟩

theorem wp_resetEventBus (h : Halting d w) (hbus : w.bus = some b) : (lived reprOf).wp resetEventBus
    (fun w r => Halting d w ∧ ∀ u, r = .ok u → Silent d w) w := by
  unfold resetEventBus
  rw [Contract.wp_bind]
  refine wp_sync (v := some (b, w.hasClient b)) h.owned (fun c => by simp only [answer, hbus, Option.map]) ?_
  rw [Contract.andThen_ok]
  cases hclient : w.hasClient b with
  | true =>
    refine Contract.wp_seq _ _ _ _ (wp_closeBus h hbus) (fun w u hw => ?_) fun w e hw => ⟨hw.1, nofun⟩
    obtain ⟨hbus', hdead⟩ := hw.2 u rfl
    exact wp_dropBus hw.1 hbus' hdead
  | false =>
    have hdead : w.liveClient b = false := by
      refine Bool.eq_false_iff.mpr fun hlive => ?_
      rw [(h.owned.client b hlive).2] at hclient
      cases hclient
    exact wp_dropBus h hbus hdead

/-- The stop ends with nothing left, or it raises and loses nothing: the database
stays the singleton. -/
def Stopped (d : Nat) (w : World) : Except Exc Unit → Prop
  | .ok _ => Clean w
  | .error _ => Halting d w

theorem wp_dropDatabase (h : Silent d w) (hlive : ∀ id ∈ w.live, id ∈ w.orphans) :
    (lived reprOf).wp (.call Op.dropDatabase) (Stopped d) w :=
  wp_sync (v := ()) h.1.owned (fun _ => rfl) ⟨hlive, h.2.2, rfl, h.2.1, h.1.supervisor⟩

theorem silent_closeConnection (reprOf : String → String) (h : Silent d w) :
    Silent d (effect reprOf w (.closeConnection d)) ∧
    ∀ id ∈ (effect reprOf w (.closeConnection d)).live, id ∈ w.orphans := by
  refine ⟨⟨⟨owned_closeConnection h.1.owned d, h.1.supervisor, h.1.db⟩, h.2⟩, fun id hid => ?_⟩
  obtain ⟨hlive, hother⟩ := List.mem_filter.mp hid
  by_contra hheld
  have hdb := (h.1.owned.connection id hlive hheld).1
  rw [h.1.db] at hdb
  cases hdb
  simp at hother

theorem wp_closeDatabase (h : Silent d w) : (lived reprOf).wp (Database.close d)
    (fun w r => Halting d w ∧ ∀ u, r = .ok u → Silent d w ∧ ∀ id ∈ w.live, id ∈ w.orphans) w := by
  obtain ⟨hsilent, hlive⟩ := silent_closeConnection reprOf h
  unfold Database.close
  rw [Contract.wp_bind]
  have hclosing (c : Chance) : answer reprOf c w (.closeConnection d) = (.ok (), true) ∨
      ∃ e landed, answer reprOf c w (.closeConnection d) = (.error e, landed) := strike_cases c
  refine wp_closing h.1.owned nofun hclosing ?_ fun e => ⟨⟨h.1, nofun⟩, ⟨hsilent.1, nofun⟩⟩
  have howned : Owned (effect reprOf (effect reprOf w (.closeConnection d)) (.dropConnection d)) := by
    refine ⟨fun id hid hheld => absurd (hlive id hid) hheld, hsilent.1.owned.client, fun d b hd => ?_⟩
    · have hd' : w.supervisor = some (d, b) := hd
      rw [h.1.supervisor] at hd'
      cases hd'
  have hhalting : Halting d (effect reprOf (effect reprOf w (.closeConnection d)) (.dropConnection d)) :=
    ⟨howned, hsilent.1.supervisor, hsilent.1.db⟩
  exact wp_sync (v := ()) hsilent.1.owned (fun c => rfl) ⟨hhalting, fun _ _ => ⟨⟨hhalting, hsilent.2⟩, hlive⟩⟩

theorem wp_resetDatabase (h : Silent d w) : (lived reprOf).wp resetDatabase (Stopped d) w := by
  unfold resetDatabase
  rw [Contract.wp_bind]
  refine wp_sync (v := some (d, w.startup.connected d)) h.1.owned
    (fun c => by simp only [answer, h.1.db, Option.map]) ?_
  rw [Contract.andThen_ok]
  cases hconnected : w.startup.connected d with
  | true =>
    refine Contract.wp_seq _ _ _ _ (wp_closeDatabase h) (fun w u hw => ?_) fun w e hw => hw.1
    obtain ⟨hsilent, hlive⟩ := hw.2 u rfl
    exact wp_dropDatabase hsilent hlive
  | false =>
    refine wp_dropDatabase h fun id hid => ?_
    by_contra hheld
    obtain ⟨hdb, hid'⟩ := h.1.owned.connection id hid hheld
    rw [h.1.db] at hdb
    cases hdb
    rw [hconnected] at hid'
    cases hid'

theorem wp_shutdown (h : Up d b w) : (lived reprOf).wp shutdown (Stopped d) w := by
  have hhalting : Halting d (effect reprOf w .resetSupervisor) :=
    ⟨⟨h.owned.connection, h.owned.client, nofun⟩, rfl, h.db⟩
  unfold shutdown resetSupervisor
  rw [Contract.wp_bind]
  refine wp_sync (v := ()) h.owned (fun c => rfl) ?_
  refine Contract.wp_seq _ _ _ _ (wp_resetEventBus hhalting h.bus) (fun w u hw => ?_) fun w e hw => hw.1
  exact wp_resetDatabase (hw.2 u rfl)

end Programs

end NoblePort.Lifespan
