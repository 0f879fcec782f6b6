import NoblePort.Coroutine

/-!
# Contracts of cooperative programs

A contract folds the answered calls of one program into a small observed
state. It relies on a condition of each answer and guarantees a condition of
each awaited call. `wp` is computed by recursion on the program, so a program
is verified by rewriting along its own text, one rule for each construct.
-/
namespace Coroutine

variable {Op : Type} {Resp : Op → Type} {ε α β ω σ : Type}

structure Contract (Op : Type) (Resp : Op → Type) (ε σ : Type) where
  observe : σ → Entry Op Resp ε → σ
  rely : σ → Entry Op Resp ε → Prop
  guarantee : σ → Op → Prop

namespace Contract

variable (C : Contract Op Resp ε σ)

/-- From observed state `s` every awaited call is guaranteed, whatever the
relied-on answers are, and the program ends in `Q`. -/
def wp : Prog Op Resp ε α → (σ → Except ε α → Prop) → σ → Prop
  | .ret a, Q, s => Q s (.ok a)
  | .raise e, Q, s => Q s (.error e)
  | .await op k, Q, s => C.guarantee s op ∧
      ∀ r landed, C.rely s ⟨op, r, landed⟩ → wp (k r) Q (C.observe s ⟨op, r, landed⟩)

/-- Go on with `f` after a value; an exception ends the sequence. -/
def andThen (f : α → Prog Op Resp ε β) (Q : σ → Except ε β → Prop) (s : σ) : Except ε α → Prop
  | .ok a => C.wp (f a) Q s
  | .error e => Q s (.error e)

@[simp] theorem andThen_ok (f : α → Prog Op Resp ε β) (Q : σ → Except ε β → Prop) (s : σ) (a : α) :
    C.andThen f Q s (.ok a) = C.wp (f a) Q s := rfl

@[simp] theorem andThen_error (f : α → Prog Op Resp ε β) (Q : σ → Except ε β → Prop) (s : σ) (e : ε) :
    C.andThen f Q s (.error e) = Q s (.error e) := rfl

@[simp] theorem wp_ret (a : α) (Q : σ → Except ε α → Prop) (s : σ) :
    C.wp (.ret a) Q s = Q s (.ok a) := rfl

@[simp] theorem wp_pure (a : α) (Q : σ → Except ε α → Prop) (s : σ) :
    C.wp (pure a) Q s = Q s (.ok a) := rfl

@[simp] theorem wp_raise (e : ε) (Q : σ → Except ε α → Prop) (s : σ) :
    C.wp (.raise e) Q s = Q s (.error e) := rfl

theorem wp_bind (p : Prog Op Resp ε α) (f : α → Prog Op Resp ε β)
    (Q : σ → Except ε β → Prop) (s : σ) :
    C.wp (p >>= f) Q s ↔ C.wp p (C.andThen f Q) s := by
  change C.wp (p.bind f) Q s ↔ _
  induction p generalizing s with
  | ret a => rfl
  | raise e => rfl
  | await op k ih => simp only [Prog.bind, wp, ih]

theorem wp_call (op : Op) (Q : σ → Except ε (Resp op) → Prop) (s : σ) :
    C.wp (.call op) Q s ↔ C.guarantee s op ∧
      ∀ r landed, C.rely s ⟨op, r, landed⟩ → Q (C.observe s ⟨op, r, landed⟩) r := by
  have h (s : σ) (r : Except ε (Resp op)) : C.wp (.ofExcept r) Q s = Q s r := by cases r <;> rfl
  simp only [Prog.call, wp, h]

theorem wp_attempt (p : Prog Op Resp ε α) (Q : σ → Except ε (Except ε α) → Prop) (s : σ) :
    C.wp p.attempt Q s ↔ C.wp p (fun s r => Q s (.ok r)) s := by
  induction p generalizing s with
  | ret a => rfl
  | raise e => rfl
  | await op k ih => simp only [Prog.attempt, wp, ih]

theorem wp_mono {Q Q' : σ → Except ε α → Prop} (p : Prog Op Resp ε α) (s : σ)
    (h : ∀ s r, Q s r → Q' s r) (hp : C.wp p Q s) : C.wp p Q' s := by
  induction p generalizing s with
  | ret a => exact h _ _ hp
  | raise e => exact h _ _ hp
  | await op k ih => exact ⟨hp.1, fun r landed hr => ih r _ (hp.2 r landed hr)⟩

/-- Where every call is allowed, every program is. -/
theorem wp_of_guarantee (h : ∀ s op, C.guarantee s op) (p : Prog Op Resp ε α) (s : σ) :
    C.wp p (fun _ _ => True) s := by
  induction p generalizing s with
  | ret a => trivial
  | raise e => trivial
  | await op k ih => exact ⟨h s op, fun r landed _ => ih r _⟩

/-- Assertions for the two ways a program ends. -/
def ends (ok : α → σ → Prop) (error : ε → σ → Prop) (s : σ) : Except ε α → Prop
  | .ok a => ok a s
  | .error e => error e s

/-- Sequencing through a summary `R` of the first program. -/
theorem wp_seq {R : σ → Except ε α → Prop} {Q : σ → Except ε β → Prop} (p : Prog Op Resp ε α)
    (f : α → Prog Op Resp ε β) (s : σ) (hp : C.wp p R s)
    (hok : ∀ s a, R s (.ok a) → C.wp (f a) Q s)
    (herror : ∀ s e, R s (.error e) → Q s (.error e)) : C.wp (p >>= f) Q s := by
  rw [wp_bind]
  refine C.wp_mono p s ?_ hp
  intro s r hr
  cases r with
  | ok a => exact hok s a hr
  | error e => exact herror s e hr

/-- A call, and what follows once it has returned. -/
theorem wp_call_seq {op : Op} {f : Resp op → Prog Op Resp ε β} {Q : σ → Except ε β → Prop} {s : σ}
    (hop : C.guarantee s op)
    (hok : ∀ a landed, C.rely s ⟨op, .ok a, landed⟩ →
      C.wp (f a) Q (C.observe s ⟨op, .ok a, landed⟩))
    (herror : ∀ e landed, C.rely s ⟨op, .error e, landed⟩ →
      Q (C.observe s ⟨op, .error e, landed⟩) (.error e)) : C.wp (.call op >>= f) Q s := by
  rw [wp_bind, wp_call]
  refine ⟨hop, ?_⟩
  intro r landed hr
  cases r with
  | ok a => exact hok a landed hr
  | error e => exact herror e landed hr

theorem wp_tryExcept {R Q : σ → Except ε α → Prop} (body : Prog Op Resp ε α)
    (handler : ε → Prog Op Resp ε α) (s : σ) (hbody : C.wp body R s)
    (hok : ∀ s a, R s (.ok a) → Q s (.ok a))
    (herror : ∀ s e, R s (.error e) → C.wp (handler e) Q s) :
    C.wp (body.tryExcept handler) Q s := by
  unfold Prog.tryExcept
  rw [wp_bind, wp_attempt]
  refine C.wp_mono body s ?_ hbody
  intro s r hr
  cases r with
  | ok a => exact hok s a hr
  | error e => exact herror s e hr

/-- The three ways through `tryFinally`: the body returns and the finally block
runs on its value, or a handler runs and the finally block runs on the value
the handler assigned, after which the handler's own exception wins. -/
theorem wp_tryFinally {R Q : σ → Except ε (ω × α) → Prop} (body : Prog Op Resp ε (ω × α))
    (handler : ε → ω × Prog Op Resp ε Unit) (fin : ω → Prog Op Resp ε Unit) (s : σ)
    (hbody : C.wp body R s)
    (hok : ∀ s w a, R s (.ok (w, a)) →
      C.wp (fin w) (C.andThen (fun _ => .ret (w, a)) Q) s)
    (herror : ∀ s e, R s (.error e) → C.wp (handler e).2 (fun s r =>
      C.wp (fin (handler e).1) (C.andThen (fun _ =>
        .raise (match r with | .ok _ => e | .error e' => e')) Q) s) s) :
    C.wp (body.tryFinally handler fin) Q s := by
  unfold Prog.tryFinally
  rw [wp_bind, wp_attempt]
  refine C.wp_mono body s ?_ hbody
  intro s r hr
  cases r with
  | ok wa =>
    simp only [andThen_ok, wp_bind]
    exact hok s wa.1 wa.2 hr
  | error e =>
    simp only [andThen_ok, wp_bind, wp_attempt]
    refine C.wp_mono _ s ?_ (herror s e hr)
    intro s r hr
    cases r with
    | ok _ => simpa only [andThen_ok, wp_bind] using hr
    | error e' => simpa only [andThen_ok, wp_bind] using hr

/-- From every observed state in `S` every call is guaranteed and the observed
state stays in `S`, so `p` can stand wherever `S` is known to hold. -/
structure Keeps (S : σ → Prop) (p : Prog Op Resp ε α) : Prop where
  wp : ∀ s, S s → C.wp p (fun s _ => S s) s

namespace Keeps

variable {C} {S : σ → Prop}

theorem ret (a : α) : C.Keeps S (.ret a) := ⟨fun _ hs => hs⟩

theorem raise (e : ε) : C.Keeps S (.raise e : Prog Op Resp ε α) := ⟨fun _ hs => hs⟩

theorem call {op : Op} (h : ∀ s, S s → C.guarantee s op)
    (hS : ∀ s r landed, S s → C.rely s ⟨op, r, landed⟩ → S (C.observe s ⟨op, r, landed⟩)) :
    C.Keeps S (.call op) := by
  constructor
  intro s hs
  rw [wp_call]
  exact ⟨h s hs, fun r landed hr => hS s r landed hs hr⟩

theorem bind {p : Prog Op Resp ε α} {f : α → Prog Op Resp ε β} (hp : C.Keeps S p)
    (hf : ∀ a, C.Keeps S (f a)) : C.Keeps S (p >>= f) :=
  ⟨fun s hs => C.wp_seq p f s (hp.wp s hs) (fun s a hs => (hf a).wp s hs) (fun _ _ hs => hs)⟩

/-- Sequencing after a program that leaves the observed state as it is. -/
theorem seq {s : σ} {p : Prog Op Resp ε α} {f : α → Prog Op Resp ε β} {Q : σ → Except ε β → Prop}
    (hp : C.Keeps (· = s) p) (hok : ∀ a, C.wp (f a) Q s) (herror : ∀ e, Q s (.error e)) :
    C.wp (p >>= f) Q s := by
  refine C.wp_seq p f s (hp.wp s rfl) ?_ ?_
  · rintro s a rfl
    exact hok a
  · rintro s e rfl
    exact herror e

theorem tryExcept {body : Prog Op Resp ε α} {handler : ε → Prog Op Resp ε α} (hb : C.Keeps S body)
    (hh : ∀ e, C.Keeps S (handler e)) : C.Keeps S (body.tryExcept handler) :=
  ⟨fun s hs => C.wp_tryExcept body handler s (hb.wp s hs) (fun _ _ hs => hs)
    (fun s e hs => (hh e).wp s hs)⟩

end Keeps

/-- The trace `tr`, observed from `s`, meets the rely condition at each answer. -/
def Relied : σ → List (Entry Op Resp ε) → Prop
  | _, [] => True
  | s, e :: tr => C.rely s e ∧ Relied (C.observe s e) tr

def after (s : σ) (tr : List (Entry Op Resp ε)) : σ := tr.foldl C.observe s

@[simp] theorem after_nil (s : σ) : C.after s [] = s := rfl

@[simp] theorem after_append (s : σ) (tr tr' : List (Entry Op Resp ε)) :
    C.after s (tr ++ tr') = C.after (C.after s tr) tr' := List.foldl_append

@[simp] theorem after_cons (s : σ) (e : Entry Op Resp ε) (tr : List (Entry Op Resp ε)) :
    C.after s (e :: tr) = C.after (C.observe s e) tr := rfl

theorem relied_append (s : σ) (tr tr' : List (Entry Op Resp ε)) :
    C.Relied s (tr ++ tr') ↔ C.Relied s tr ∧ C.Relied (C.after s tr) tr' := by
  induction tr generalizing s with
  | nil => simp [Relied]
  | cons e tr ih => simp only [List.cons_append, Relied, ih, after_cons, and_assoc]

/-- A rely condition that holds of every answer, in whatever observed state. -/
theorem relied_of_forall {s : σ} {tr : List (Entry Op Resp ε)}
    (h : ∀ e ∈ tr, ∀ s, C.rely s e) : C.Relied s tr := by
  induction tr generalizing s with
  | nil => trivial
  | cons e tr ih =>
    exact ⟨h e (List.mem_cons_self ..) s, ih fun e he => h e (List.mem_cons_of_mem _ he)⟩

/-- A program alone with a handler: the state of the handler is observed, and
every answer is the one it gives. -/
def handled {S : Type} (answer : (op : Op) → S → Except ε (Resp op) × S) : Contract Op Resp ε S where
  observe s e := (answer e.op s).2
  rely s e := e.result = (answer e.op s).1
  guarantee _ _ := True

/-- Verifying a program alone with a handler is running it. -/
theorem wp_handled {S : Type} (answer : (op : Op) → S → Except ε (Resp op) × S)
    (p : Prog Op Resp ε α) (Q : S → Except ε α → Prop) (s : S) :
    (handled answer).wp p Q s ↔ Q (p.run answer s).2 (p.run answer s).1 := by
  induction p generalizing s with
  | ret a => rfl
  | raise e => rfl
  | await op k ih =>
    constructor
    · intro h
      exact (ih _ _).mp (h.2 _ true rfl)
    · intro h
      refine ⟨trivial, fun r landed hr => ?_⟩
      have hanswer : r = (answer op s).1 := hr
      subst hanswer
      exact (ih _ _).mpr h

end Contract

end Coroutine
