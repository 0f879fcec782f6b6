import NoblePort.Runtime

/-!
# The turns of a thread

What the checkpoints of a thread are for: each acknowledged invocation adds
one turn. The history of a list of turns, newest first, is the rows the
supervisor with its default step stores when each turn builds on the one before.
-/
namespace NoblePort.Turns

open NoblePort.Values NoblePort.Store NoblePort.Records NoblePort.Runtime

structure Turn where
  input : String
  checkpointId : String

/-- A message as it is read back from a checkpoint. -/
def message (role content : String) : PyVal :=
  .dict [(.str "content", .str content), (.str "role", .str role)]

def Turn.messages (turn : Turn) : List PyVal :=
  [message "user" turn.input, message "supervisor" s!"ack:{turn.input}"]

/-- All messages up to the newest turn, oldest first. -/
def said : List Turn → List PyVal
  | [] => []
  | turn :: past => said past ++ turn.messages

def messageText (role content : String) : Json :=
  .obj [("content", .str content), ("role", .str role)]

def saidText : List Turn → List Json
  | [] => []
  | turn :: past => saidText past ++
    [messageText "user" turn.input, messageText "supervisor" s!"ack:{turn.input}"]

def stateText (t : String) (turn : Turn) (past : List Turn) : JsonObject :=
  [("completed", .bool true), ("input", .str turn.input), ("messages", .arr (saidText (turn :: past))),
    ("step", .int (past.length + 1)), ("thread_id", .str t)]

def rowOf (t : String) (turn : Turn) (past : List Turn) : CheckpointRow :=
  ⟨t, turn.checkpointId, past.head?.map (·.checkpointId), stateText t turn past⟩

def latestOf (t : String) : List Turn → Option CheckpointRow
  | [] => none
  | turn :: past => some (rowOf t turn past)

def history (t : String) : List Turn → List CheckpointRow
  | [] => []
  | turn :: past => history t past ++ [rowOf t turn past]

theorem getLast?_history (t : String) (turns : List Turn) :
    (history t turns).getLast? = latestOf t turns := by
  cases turns <;> simp [history, latestOf]

theorem said_eq (turns : List Turn) : said turns = turns.reverse.flatMap Turn.messages := by
  induction turns with
  | nil => rfl
  | cons turn past ih => simp [said, ih]

/-- What a turn stores depends on the past only through the latest row. -/
theorem rowOf_congr {t : String} {past past' : List Turn} (turn : Turn)
    (h : latestOf t past = latestOf t past') : rowOf t turn past = rowOf t turn past' := by
  cases past with
  | nil => cases past' with
    | nil => rfl
    | cons last' past' => cases h
  | cons last past => cases past' with
    | nil => cases h
    | cons last' past' =>
      simp only [latestOf, rowOf, stateText, Option.some.injEq, CheckpointRow.mk.injEq,
        List.cons.injEq, Prod.mk.injEq, Json.arr.injEq, Json.int.injEq] at h
      obtain ⟨_, hid, _, _, _, ⟨_, hsaid⟩, ⟨_, hlen⟩, _⟩ := h
      have hlen' : past.length = past'.length := by omega
      have hturn : saidText (turn :: last :: past) = saidText (turn :: last' :: past') := by
        rw [saidText, hsaid]
        rfl
      simp only [rowOf, stateText, List.head?_cons, Option.map_some, hid, List.length_cons, hlen', hturn]

/-- The rows are one chain. -/
def Chained : Option String → List CheckpointTuple → Prop
  | _, [] => True
  | parent, cp :: rest => cp.parentId = parent ∧ Chained (some cp.checkpointId) rest

theorem chained_append {parent : Option String} {cps : List CheckpointTuple} {cp : CheckpointTuple} :
    Chained parent (cps ++ [cp]) ↔ Chained parent cps ∧
      cp.parentId = (cps.getLast?.map (·.checkpointId)).or parent := by
  induction cps generalizing parent with
  | nil => simp [Chained]
  | cons x cps ih =>
    rw [List.cons_append, Chained, Chained, ih, List.getLast?_cons, and_assoc]
    cases cps.getLast? <;> simp

theorem chained_history (t : String) (turns : List Turn) :
    Chained none ((history t turns).map CheckpointTuple.ofRow) := by
  induction turns with
  | nil => trivial
  | cons turn past ih =>
    rw [history, List.map_append, List.map_singleton, chained_append, List.getLast?_map,
      getLast?_history]
    refine ⟨ih, ?_⟩
    cases past <;> rfl

@[simp] theorem decode_messageText (role content : String) :
    decode (messageText role content) = message role content := rfl

theorem decodeList_append (xs ys : List Json) :
    decodeList (xs ++ ys) = decodeList xs ++ decodeList ys := by
  induction xs with
  | nil => rfl
  | cons x xs ih => simp [decodeList, ih]

theorem decodeList_saidText (turns : List Turn) : decodeList (saidText turns) = said turns := by
  induction turns with
  | nil => rfl
  | cons turn past ih => simp [saidText, said, decodeList_append, ih, decodeList, Turn.messages]

theorem encodeList_append {xs ys : List PyVal} {as bs : List Json} (hx : encodeList xs = .ok as)
    (hy : encodeList ys = .ok bs) : encodeList (xs ++ ys) = .ok (as ++ bs) := by
  induction xs generalizing as with
  | nil =>
    cases hx
    exact hy
  | cons x xs ih =>
    rw [encodeList] at hx
    cases hy' : encode x with
    | error e => rw [hy'] at hx; cases hx
    | ok y =>
      cases hys : encodeList xs with
      | error e => rw [hy', hys] at hx; cases hx
      | ok ys' =>
        rw [hy', hys] at hx
        cases hx
        rw [List.cons_append, encodeList, hy', ih hys]
        rfl

theorem encodeList_said (turns : List Turn) : encodeList (said turns) = .ok (saidText turns) := by
  induction turns with
  | nil => rfl
  | cons turn past ih => exact encodeList_append ih rfl

theorem loads_stateText (t : String) (turn : Turn) (past : List Turn) :
    loads (stateText t turn past) =
      [(.str "completed", .bool true), (.str "input", .str turn.input),
        (.str "messages", .list (said (turn :: past))), (.str "step", .int (past.length + 1)),
        (.str "thread_id", .str t)] := by
  simp only [stateText, loads, decode, decodeList_saidText]

/-- A message as the default step appends it. -/
def newMessage (role content : String) : PyVal :=
  .dict [(.str "role", .str role), (.str "content", .str content)]

def Turn.newMessages (turn : Turn) : List PyVal :=
  [newMessage "user" turn.input, newMessage "supervisor" s!"ack:{turn.input}"]

theorem encodeList_said_append (turn : Turn) (past : List Turn) :
    encodeList (said past ++ turn.newMessages) = .ok (saidText (turn :: past)) :=
  encodeList_append (encodeList_said past) rfl

/-- The state after the step of `turn`: a fresh one, or the stored one updated. -/
def stateOf (t : String) (turn : Turn) : List Turn → Dict
  | [] => [(.str "messages", .list turn.newMessages), (.str "step", .int 1),
      (.str "input", .str turn.input), (.str "thread_id", .str t), (.str "completed", .bool true)]
  | past => [(.str "completed", .bool true), (.str "input", .str turn.input),
      (.str "messages", .list (said past ++ turn.newMessages)), (.str "step", .int (past.length + 1)),
      (.str "thread_id", .str t)]

theorem truthyAt_stateOf (t : String) (turn : Turn) (past : List Turn) :
    Dict.truthyAt (stateOf t turn past) "completed" = true := by
  cases past <;> rfl

theorem dumps_stateOf (t : String) (turn : Turn) (past : List Turn) :
    dumps (stateOf t turn past) = .ok (stateText t turn past) := by
  have hmessages := encodeList_said_append turn past
  cases past with
  | nil => rfl
  | cons last past =>
    simp only [stateOf, dumps, encodeItems, encode, hmessages]
    rfl

theorem defaultSupervisorStep_eq (strOf : PyVal → String) {state : Dict} {k : Int}
    {msgs : List PyVal} (turn : Turn) (hstep : Dict.get? state "step" = some (.int k))
    (hmsgs : Dict.get? state "messages" = some (.list msgs))
    (hinput : Dict.get? state "input" = some (.str turn.input)) (hne : turn.input ≠ "") :
    defaultSupervisorStep strOf state = .ok (Dict.set (Dict.set (Dict.set state "step" (.int (k + 1)))
      "messages" (.list (msgs ++ turn.newMessages))) "completed" (.bool true)) := by
  have htruthy : (PyVal.str turn.input).truthy = true := by simpa [PyVal.truthy] using hne
  simp only [defaultSupervisorStep, hstep, hmsgs, hinput, Option.getD_some, htruthy, if_true,
    PyVal.toInt, format, List.append_assoc]
  -- an empty list of messages is falsy, and is replaced by an empty list
  cases msgs <;> rfl

/-- What an invocation adds to its thread. -/
def turnOf (req : Request) (d : Draws) : Turn := ⟨req.inputText, d.checkpointId 0⟩

/-- The default step on a state that resumes a history adds the next turn. -/
theorem step_adds_turn (strOf : PyVal → String) (req : Request) (d : Draws) (past : List Turn)
    (hinput : req.inputText ≠ "") :
    defaultSupervisorStep strOf
        (Supervisor.resume req d ((latestOf (Supervisor.tid req d) past).map CheckpointTuple.ofRow)) =
      .ok (stateOf (Supervisor.tid req d) (turnOf req d) past) := by
  cases past with
  | nil =>
    rw [defaultSupervisorStep_eq strOf (turnOf req d) rfl rfl rfl hinput]
    rfl
  | cons last past =>
    rw [latestOf, Option.map_some, CheckpointTuple.ofRow, rowOf, Supervisor.resume, loads_stateText,
      defaultSupervisorStep_eq strOf (turnOf req d) rfl rfl rfl hinput]
    rfl

end NoblePort.Turns
