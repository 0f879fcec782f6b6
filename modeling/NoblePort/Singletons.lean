import NoblePort.Teardown

/-!
# The singletons over a whole process

Requests find the singletons as the start has left them, so what a single
lifespan keeps is kept by any number of them.
-/
namespace NoblePort.Lifespan

open Coroutine NoblePort.Values
open NoblePort.Startup (Chance)

section Serving

variable {reprOf : String → String} {w : World} {d b : Nat}

/-- What a request does while all three are there: it finds them, and uses these two. -/
def Uses (d b : Nat) : Op → Prop
  | .database .enter | .getEventBus | .supervisor => True
  | .query db => db = d
  | .send bus => bus = b
  | _ => False

/-- The calls of other requests leave the singletons as they are. -/
def served (reprOf : String → String) (d b : Nat) : Contract Op Op.Resp Exc Unit where
  observe _ _ := ()
  rely _ e := ∃ c w, Up d b w ∧ e = (interp reprOf).entry c w e.op
  guarantee _ op := Uses d b op

theorem up_uses {op : Op} (h : Up d b w) (hop : Uses d b op) (c : Chance) :
    Up d b (after reprOf w ((interp reprOf).entry c w op)) := by
  have heffect : Up d b (effect reprOf w op) := by
    cases op with
    | database op =>
      cases op with
      | enter =>
        have hsame : (effect reprOf w (.database .enter)).startup.db = some d := by
          simp only [effect, Startup.effect, h.db]
        exact ⟨owned_enter h.owned, hsame, h.bus, h.supervisor⟩
      | on id a => exact hop.elim
    | getEventBus =>
      have hsame : effect reprOf w .getEventBus = w := by simp only [effect, h.bus]
      exact hsame.symm ▸ h
    | supervisor => exact h
    | query db => exact h
    | send bus =>
      cases hop
      exact ⟨owned_send h.owned h.bus, h.db, h.bus, h.supervisor⟩
    | _ => exact hop.elim
  rw [after_eq]
  · unfold Interp.settle
    split
    · exact heffect
    · exact h
  · rintro id a ⟨⟩
    exact hop

theorem keeps_query : (served reprOf d b).Keeps (fun _ => True) (.call (.query d)) :=
  .call (fun _ _ => rfl) fun _ _ _ _ _ => trivial

theorem keeps_send : (served reprOf d b).Keeps (fun _ => True) (.call (.send b)) :=
  .call (fun _ _ => rfl) fun _ _ _ _ _ => trivial

/-- What is there is found. -/
theorem served_finds {op : Op} {v : op.Resp} (hop : Uses d b op)
    (hv : ∀ w c, Up d b w → answer reprOf c w op = (.ok v, true)) :
    (served reprOf d b).wp (.call op) (fun _ r => r = .ok v) () := by
  rw [Contract.wp_call]
  refine ⟨hop, ?_⟩
  rintro r landed ⟨c, w, hup, hc⟩
  rw [entry_eq (hv w c hup)] at hc
  cases hc
  rfl

theorem served_getSupervisor : (served reprOf d b).wp getSupervisor (fun _ r => r = .ok (d, b)) () := by
  unfold getSupervisor
  refine Contract.wp_seq _ _ _ _ (served_finds (v := some (d, b)) trivial fun w c hup => ?_) ?_ nofun
  · simp only [answer, hup.supervisor]
  · rintro _ pair ⟨⟩
    rfl

theorem served_getDatabase : (served reprOf d b).wp getDatabase (fun _ r => r = .ok d) () := by
  refine ⟨trivial, ?_⟩
  rintro r landed ⟨c, w, hup, hc⟩
  have hanswer : answer reprOf c w (.database .enter) = (.ok (.existing d), true) := by
    simp only [answer, Startup.answer, hup.db]
  rw [entry_eq hanswer] at hc
  cases hc
  rfl

theorem served_swallow {p : Life Unit} (hp : (served reprOf d b).Keeps (fun _ => True) p) :
    (served reprOf d b).Keeps (fun _ => True) (swallow p) := by
  refine .tryExcept hp fun e => ?_
  cases e with
  | cancelled => exact .raise _
  | exception cls s => exact .ret ()

theorem served_program (request : Request) :
    (served reprOf d b).wp request.program (fun _ _ => True) () := by
  cases request with
  | health => exact Contract.wp_seq _ _ _ _ served_getSupervisor (fun _ _ _ => trivial) fun _ _ _ => trivial
  | ready enableRedis =>
    have hquery : (served reprOf d b).Keeps (fun _ => True) (do
        let db ← getDatabase
        Prog.call (Op.query db)) := by
      refine ⟨fun _ _ => Contract.wp_seq _ _ _ _ served_getDatabase ?_ fun _ _ _ => trivial⟩
      rintro s db ⟨⟩
      exact keeps_query.wp s trivial
    refine (Contract.Keeps.bind (served_swallow hquery) fun _ => ⟨fun s _ => ?_⟩).wp () trivial
    cases enableRedis with
    | false => trivial
    | true =>
      refine Contract.wp_seq _ _ _ _ (served_finds (v := b) trivial fun w c hup => ?_) ?_ fun _ _ _ => trivial
      · simp only [answer, hup.bus, Option.getD]
      · rintro s bus ⟨⟩
        exact (served_swallow keeps_send).wp s trivial
  | invoke body =>
    refine Contract.wp_seq _ _ _ _ served_getSupervisor ?_ fun _ _ _ => trivial
    rintro s pair ⟨⟩
    refine (Contract.Keeps.subst (fun use => ?_) body).wp s trivial
    cases use with
    | statement => exact keeps_query
    | publish => exact keeps_send
  | status body =>
    refine Contract.wp_seq _ _ _ _ served_getDatabase ?_ fun _ _ _ => trivial
    rintro s db ⟨⟩
    exact (Contract.Keeps.subst (fun _ => keeps_query) body).wp s trivial

end Serving

section Runs

variable {κ : Type} [DecidableEq κ] {reprOf : String → String} {s s' : Server κ}

/-- What is known of the process in each of its phases. -/
def Good (reprOf : String → String) (s : Server κ) : Prop :=
  match s.phase with
  | .down => Owned s.world
  | .starting => (lived reprOf).wp s.life Started s.world
  | .up => ∃ d b, Up d b s.world ∧ ∀ k, (served reprOf d b).wp (s.requests k) (fun _ _ => True) ()
  | .stopping => ∃ d, (lived reprOf).wp s.life (Stopped d) s.world

theorem advance_cases {c : Chance} {w w' : World} {p p' : Life Unit}
    (h : advance reprOf c w p = some (w', p')) :
    ∃ op k, p = .await op k ∧ w' = after reprOf w ((interp reprOf).entry c w op) ∧
      p' = k ((interp reprOf).entry c w op).result := by
  unfold advance at h
  split at h
  · cases h
    exact ⟨_, _, rfl, rfl, rfl⟩
  · cases h

/-- A step of the lifespan itself. -/
theorem lived_advance {c : Chance} {w w' : World} {p p' : Life Unit} {Q : World → Except Exc Unit → Prop}
    (hp : (lived reprOf).wp p Q w) (h : advance reprOf c w p = some (w', p')) :
    (lived reprOf).wp p' Q w' := by
  obtain ⟨op, k, rfl, rfl, rfl⟩ := advance_cases h
  exact hp.2 _ _ ⟨c, rfl⟩

omit [DecidableEq κ] in
theorem owned_of_lived {p : Life Unit} {Q : World → Except Exc Unit → Prop} {w : World}
    (hp : (lived reprOf).wp p Q w) (hQ : ∀ r, Q w r → Owned w) : Owned w := by
  cases p with
  | ret u => exact hQ _ hp
  | raise e => exact hQ _ hp
  | await op k => exact hp.1

theorem owned_of_clean {w : World} (h : Clean w) : Owned w := by
  refine ⟨fun id hid hheld => absurd (h.connection id hid) hheld, fun id hid => ?_, fun d b hd => ?_⟩
  · rw [h.client] at hid
    cases hid
  · rw [h.supervisor] at hd
    cases hd

theorem owned_of_started {w : World} (r : Except Exc Unit) (h : Started w r) : Owned w := by
  cases r with
  | ok u =>
    obtain ⟨d, b, hup⟩ := h
    exact hup.owned
  | error e => exact h

theorem owned_of_stopped {w : World} {d : Nat} (r : Except Exc Unit) (h : Stopped d w r) : Owned w := by
  cases r with
  | ok u => exact owned_of_clean h
  | error e => exact h.owned

theorem good_step (hs : Good reprOf s) (h : Step reprOf s s') : Good reprOf s' := by
  cases h with
  | boot => exact wp_startup hs
  | starting h => exact lived_advance hs h
  | failed => exact hs
  | serve requests =>
    obtain ⟨d, b, hup⟩ := hs
    refine ⟨d, b, hup, fun k => ?_⟩
    cases hk : requests k with
    | none => simp only [hk, Option.map_none, Option.getD_none, Contract.wp_ret]
    | some request => simpa only [hk, Option.map_some, Option.getD_some] using served_program request
  | @serving w p r k c w' p' h =>
    obtain ⟨d, b, hup, hrequests⟩ := hs
    obtain ⟨op, m, hr, rfl, rfl⟩ := advance_cases h
    have hrk := hrequests k
    simp only at hrk
    rw [hr] at hrk
    refine ⟨d, b, up_uses hup hrk.1 c, fun j => ?_⟩
    change (served reprOf d b).wp (Function.update r k _ j) _ _
    by_cases hj : j = k
    · subst hj
      rw [Function.update_self]
      exact hrk.2 _ ((interp reprOf).entry c w op).landed ⟨c, w, hup, rfl⟩
    · rw [Function.update_of_ne hj]
      exact hrequests j
  | stop _ =>
    obtain ⟨d, b, hup, _⟩ := hs
    exact ⟨d, wp_shutdown hup⟩
  | stopping h =>
    obtain ⟨d, hlife⟩ := hs
    exact ⟨d, lived_advance hlife h⟩
  | stopped hover =>
    obtain ⟨d, hlife⟩ := hs
    exact owned_of_lived hlife owned_of_stopped

theorem good_run {url : String} {enableRedis : Bool} (h : Run reprOf (Server.off url enableRedis) s) :
    Good reprOf s := by
  induction h with
  | refl => exact ⟨nofun, fun id hid => absurd hid (by simp [Server.off, World.liveClient]), nofun⟩
  | tail _ hstep ih => exact good_step ih hstep

omit [DecidableEq κ] in
theorem owned_of_good (h : Good reprOf s) : Owned s.world := by
  unfold Good at h
  split at h
  · exact h
  · exact owned_of_lived h owned_of_started
  · obtain ⟨d, b, hup, _⟩ := h
    exact hup.owned
  · obtain ⟨d, hlife⟩ := h
    exact owned_of_lived hlife owned_of_stopped

/-- In every run of a process, over any number of lifespans and whatever fails
in them: a connection or client that is open belongs to the singleton of its
kind, and so do the two that the supervisor holds, so none is ever lost but one
that an await opened before it raised. While requests are served all three are
there, and the requests use these and make no other. A stop that ends has closed
everything else; one that raises keeps the database for the next start. -/
theorem lifespans_lose_nothing (reprOf : String → String) (url : String) (enableRedis : Bool) (s : Server κ)
    (h : Run reprOf (Server.off url enableRedis) s) :
    Owned s.world ∧
    (s.phase = .up → ∃ d b, Up d b s.world ∧ ∀ k op, (s.requests k).awaits = some op → Uses d b op) ∧
    (s.phase = .stopping → ∀ r, s.life.outcome = some r → ∃ d, Stopped d s.world r) := by
  have hgood := good_run h
  refine ⟨owned_of_good hgood, fun hphase => ?_, fun hphase r hr => ?_⟩
  · simp only [Good, hphase] at hgood
    obtain ⟨d, b, hup, hrequests⟩ := hgood
    refine ⟨d, b, hup, fun k op hop => ?_⟩
    have hwp := hrequests k
    cases hk : s.requests k with
    | ret u => simp [hk, Prog.awaits] at hop
    | raise e => simp [hk, Prog.awaits] at hop
    | await op' m =>
      rw [hk] at hwp hop
      cases hop
      exact hwp.1
  · simp only [Good, hphase] at hgood
    obtain ⟨d, hlife⟩ := hgood
    refine ⟨d, ?_⟩
    cases hp : s.life with
    | await op k => simp [hp, Prog.outcome] at hr
    | ret u =>
      rw [hp] at hlife hr
      cases hr
      exact hlife
    | raise e =>
      rw [hp] at hlife hr
      cases hr
      exact hlife

/-- Some steps of a program by itself. -/
def advances (reprOf : String → String) : List Chance → World → Life Unit → Option (World × Life Unit)
  | [], w, p => some (w, p)
  | c :: cs, w, p => (advance reprOf c w p).bind fun x => advances reprOf cs x.1 x.2

theorem run_starting {cs : List Chance} {w w' : World} {p p' : Life Unit} (r : κ → Life Unit)
    (h : advances reprOf cs w p = some (w', p')) : Run reprOf ⟨.starting, w, p, r⟩ ⟨.starting, w', p', r⟩ := by
  induction cs generalizing w p with
  | nil =>
    cases h
    exact .refl
  | cons c cs ih =>
    obtain ⟨⟨w₁, p₁⟩, h₁, hrest⟩ := Option.bind_eq_some_iff.mp h
    exact .head (.starting h₁) (ih hrest)

theorem run_stopping {cs : List Chance} {w w' : World} {p p' : Life Unit} (r : κ → Life Unit)
    (h : advances reprOf cs w p = some (w', p')) : Run reprOf ⟨.stopping, w, p, r⟩ ⟨.stopping, w', p', r⟩ := by
  induction cs generalizing w p with
  | nil =>
    cases h
    exact .refl
  | cons c cs ih =>
    obtain ⟨⟨w₁, p₁⟩, h₁, hrest⟩ := Option.bind_eq_some_iff.mp h
    exact .head (.stopping h₁) (ih hrest)

def returned (p : Life Unit) : Bool :=
  match p with
  | .ret _ => true
  | _ => false

def cancelled (p : Life Unit) : Bool :=
  match p with
  | .raise .cancelled => true
  | _ => false

theorem eq_of_returned {p : Life Unit} (h : returned p = true) : p = .ret () := by
  unfold returned at h
  split at h
  · rfl
  · cases h

theorem eq_of_cancelled {p : Life Unit} (h : cancelled p = true) : p = .raise .cancelled := by
  unfold cancelled at h
  split at h
  · rfl
  · cases h

/-- A lifespan without requests. -/
theorem run_lifespan {cs cs' : List Chance} {w₁ : World} {p' : Life Unit} (r : κ → Life Unit)
    (hstart : advances reprOf cs w startup = some (w₁, .ret ()))
    (hstop : advances reprOf cs' w₁ shutdown = some (w', p')) :
    Run reprOf ⟨.down, w, p, r⟩ ⟨.stopping, w', p', fun _ => .ret ()⟩ := by
  refine .head .boot (.trans (run_starting _ hstart) ?_)
  exact .head (.serve fun _ => none) (.head (.stop fun _ => rfl) (run_stopping _ hstop))

/-- The stop is cancelled while it closes the connection. -/
theorem lifespans_lose_nothing_cancelled : ∃ s : Server Unit, Run id (Server.off "sqlite:///a.db" false) s ∧
    s.phase = .stopping ∧ s.world.live = [0] ∧ ∃ d, Halting d s.world := by
  obtain ⟨⟨w₁, p₁⟩, h₁, hend⟩ := (Option.any_eq_true _ _).mp (show ((advances id (List.replicate 27 {})
    (Server.off "sqlite:///a.db" false : Server Unit).world startup).any fun x => returned x.2 &&
      ((advances id [{}, {}, {}, {}, { fault := some .cancelled }] x.1 shutdown).any fun y =>
        cancelled y.2 && decide (y.1.live = [0]))) = true by decide)
  obtain ⟨hreturned, hstop⟩ := Bool.and_eq_true_iff.mp hend
  obtain ⟨⟨w₂, p₂⟩, h₂, hcancelled⟩ := (Option.any_eq_true _ _).mp hstop
  obtain ⟨hraised, hlive⟩ := Bool.and_eq_true_iff.mp hcancelled
  obtain rfl : p₁ = .ret () := eq_of_returned hreturned
  obtain rfl : p₂ = .raise .cancelled := eq_of_cancelled hraised
  have hrun : Run id (Server.off "sqlite:///a.db" false)
      (⟨.stopping, w₂, .raise .cancelled, fun _ => .ret ()⟩ : Server Unit) := run_lifespan _ h₁ h₂
  obtain ⟨d, hstopped⟩ := (lifespans_lose_nothing id "sqlite:///a.db" false _ hrun).2.2 rfl _ rfl
  exact ⟨_, hrun, rfl, of_decide_eq_true hlive, d, hstopped⟩

/-- The first start is cancelled once SQLite is open. The second takes the
`Database` as it is, and its stop ends with the connection still open. -/
theorem cancelled_start_orphans : ∃ s : Server Unit, Run id (Server.off "sqlite:///a.db" false) s ∧
    s.phase = .stopping ∧ s.life = .ret () ∧ s.world.startup.db = none ∧ s.world.live = [0] ∧
    s.world.orphans = [0] := by
  obtain ⟨⟨w₁, p₁⟩, h₁, hend⟩ := (Option.any_eq_true _ _).mp (show ((advances id
    [{}, { fault := some .cancelled, landed := true }]
    (Server.off "sqlite:///a.db" false : Server Unit).world startup).any fun x => cancelled x.2 &&
      ((advances id (List.replicate 6 {}) x.1 startup).any fun y => returned y.2 &&
        ((advances id (List.replicate 5 {}) y.1 shutdown).any fun z => returned z.2 &&
          decide (z.1.startup.db = none ∧ z.1.live = [0] ∧ z.1.orphans = [0])))) = true by decide)
  obtain ⟨hcancelled, hstart⟩ := Bool.and_eq_true_iff.mp hend
  obtain ⟨⟨w₂, p₂⟩, h₂, hend⟩ := (Option.any_eq_true _ _).mp hstart
  obtain ⟨hstarted, hstop⟩ := Bool.and_eq_true_iff.mp hend
  obtain ⟨⟨w₃, p₃⟩, h₃, hend⟩ := (Option.any_eq_true _ _).mp hstop
  obtain ⟨hstopped, hleft⟩ := Bool.and_eq_true_iff.mp hend
  obtain rfl : p₁ = .raise .cancelled := eq_of_cancelled hcancelled
  obtain rfl : p₂ = .ret () := eq_of_returned hstarted
  obtain rfl : p₃ = .ret () := eq_of_returned hstopped
  have hfirst : Run id (Server.off "sqlite:///a.db" false)
      (⟨.down, w₁, .raise .cancelled, fun _ => .ret ()⟩ : Server Unit) :=
    .head .boot (.tail (run_starting _ h₁) .failed)
  exact ⟨⟨.stopping, w₃, .ret (), fun _ => .ret ()⟩, hfirst.trans (run_lifespan _ h₂ h₃), rfl, rfl,
    of_decide_eq_true hleft⟩

end Runs

end NoblePort.Lifespan
