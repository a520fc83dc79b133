import ProbeForge.Proofs.Database.Connections
import ProbeForge.Proofs.OrderedMap

/-!
# Accounts of a run

A run asks for each statement that is not blank once, in order, and counts how each ended. What was
sent can be read off the log, where the statement that follows the making of a connection sets its
limit. A statement for which there was no connection is counted as well, though it was not sent.
-/

namespace ProbeForge.Database

/-! ### Statements in a log -/

/-- The statements of a log, each with whether it succeeded. A statement that sets the limit, as the
first one on a new connection, is left out. -/
def sentAfter (limit : Option Int) : Bool → List Event → List (String × Bool)
  | _, [] => []
  | _, .connect _ c :: rest => sentAfter limit c.isSome rest
  | _, .close _ :: rest => sentAfter limit false rest
  | fresh, .execute _ sql _ succeeded :: rest =>
    if fresh = true ∧ limit.map Client.limitStatement = some sql then sentAfter limit false rest
    else (sql, succeeded) :: sentAfter limit false rest

def sentStatements (limit : Option Int) (log : List Event) : List (String × Bool) :=
  sentAfter limit false log

/-- Whatever follows, the events send some statements and leave no limit to be set. -/
def Sending (limit : Option Int) (events : List Event) (sent : List (String × Bool)) : Prop :=
  ∀ rest, sentStatements limit (events ++ rest) = sent ++ sentStatements limit rest

variable {limit : Option Int} {events more : List Event} {sent sent' : List (String × Bool)}

theorem sending_nil : Sending limit [] [] := fun _ => rfl

theorem Sending.append (h : Sending limit events sent) (h' : Sending limit more sent') :
    Sending limit (events ++ more) (sent ++ sent') := fun rest => by
  rw [List.append_assoc, List.append_assoc, h, h']

theorem Sending.sentStatements_eq (h : Sending limit events sent) :
    sentStatements limit events = sent := by
  have hall := h []
  rwa [List.append_nil, sentStatements, sentStatements, sentAfter, List.append_nil] at hall

theorem sending_execute (c : Connection) (sql : String) (arguments : Option (List Json))
    (succeeded : Bool) :
    Sending limit [.execute c sql arguments succeeded] [(sql, succeeded)] := fun _ => by
  rw [List.singleton_append, sentStatements, sentAfter, if_neg (by simp)]
  rfl

theorem sending_close (c : Connection) : Sending limit [.close c] [] := fun _ => rfl

theorem sending_refused (dsn : Json) : Sending limit [.connect dsn none] [] := fun _ => rfl

/-- Without a limit nothing is left out. -/
theorem sending_unlimited (dsn : Json) (c : Connection) :
    Sending none [.connect dsn (some c)] [] := by
  intro rest
  change sentAfter none true rest = sentAfter none false rest
  cases rest with
  | nil => rfl
  | cons event rest => cases event <;> simp [sentAfter]

theorem sending_limit (dsn : Json) (c : Connection) (limit : Int)
    (arguments : Option (List Json)) (succeeded : Bool) :
    Sending (some limit)
      [.connect dsn (some c), .execute c (Client.limitStatement limit) arguments succeeded] [] :=
  fun _ => if_pos ⟨rfl, rfl⟩

/-! ### Servers whose errors can be told from success -/

variable {s s' s'' : Server} {dsn : Json} {c : Connection} {failure : ServerError}

/-- No error that the server will answer with has the name of success. -/
structure Server.Honest (s : Server) : Prop where
  connects : ∀ e, .error e ∈ s.connects → e.name ≠ "ok"
  replies : ∀ e, .error e ∈ s.replies → e.name ≠ "ok"

theorem mem_of_head?_getD {α : Type} {l : List α} {a absent : α} (h : l.head?.getD absent = a)
    (hne : absent ≠ a) : a ∈ l := by
  rcases Option.getD_eq_iff.mp h with hhead | ⟨-, hsame⟩
  · exact List.mem_of_mem_head? hhead
  · exact absurd hsame hne

theorem Server.Honest.connect (h : s.Honest) (hrun : s.connect dsn = (.error failure, s')) :
    failure.name ≠ "ok" := by
  unfold Server.connect at hrun
  dsimp only at hrun
  split at hrun
  case h_1 e he =>
    cases hrun
    exact h.connects _ (mem_of_head?_getD he nofun)
  all_goals cases hrun

theorem Server.Honest.execute {sql : String} {arguments : Option (List Json)} (h : s.Honest)
    (hrun : s.execute c sql arguments = (.error failure, s')) : failure.name ≠ "ok" := by
  unfold Server.execute at hrun
  dsimp only at hrun
  split at hrun
  case h_3 e he =>
    cases hrun
    exact h.replies _ (mem_of_head?_getD he nofun)
  all_goals cases hrun

/-- Some statements were sent between two states of a server, and errors can still be told from
success. -/
structure Asks (limit : Option Int) (sent : List (String × Bool)) (s s' : Server) : Prop where
  log : ∃ events, s'.log = s.log ++ events ∧ Sending limit events sent
  honest : s.Honest → s'.Honest

theorem Asks.refl (limit : Option Int) (s : Server) : Asks limit [] s s :=
  ⟨⟨[], (List.append_nil _).symm, sending_nil⟩, id⟩

theorem Asks.trans (h : Asks limit sent s s') (h' : Asks limit sent' s' s'') :
    Asks limit (sent ++ sent') s s'' := by
  obtain ⟨events, hlog, hsending⟩ := h.log
  obtain ⟨more, hlog', hsending'⟩ := h'.log
  exact ⟨⟨events ++ more, by rw [hlog', hlog, List.append_assoc], hsending.append hsending'⟩,
    fun hs => h'.honest (h.honest hs)⟩

theorem honest_connect {result : Except ServerError Connection} (h : s.Honest)
    (hrun : s.connect dsn = (result, s')) : s'.Honest := by
  have hconnects := Server.connect_connects dsn s
  rw [hrun] at hconnects
  cases hconnects <;> exact ⟨fun e he => h.connects e (List.mem_of_mem_tail he), h.replies⟩

theorem honest_execute {sql : String} {arguments : Option (List Json)}
    {result : Except ServerError Unit} (h : s.Honest)
    (hrun : s.execute c sql arguments = (result, s')) : s'.Honest := by
  have hexecutes := Server.execute_executes c sql arguments s
  rw [hrun] at hexecutes
  cases hexecutes <;> exact ⟨h.connects, fun e he => h.replies e (List.mem_of_mem_tail he)⟩

theorem asks_execute {sql : String} {arguments : Option (List Json)}
    {result : Except ServerError Unit} (limit : Option Int)
    (hrun : s.execute c sql arguments = (result, s')) :
    Asks limit [(sql, result.isOk)] s s' :=
  ⟨⟨_, Execution.execute_log hrun, sending_execute c sql arguments _⟩,
    fun h => honest_execute h hrun⟩

theorem asks_limit {limit : Int} {result : Except ServerError Unit}
    (hmade : s.connect dsn = (.ok c, s'))
    (hset : s'.execute c (Client.limitStatement limit) none = (result, s'')) :
    Asks (some limit) [] s s'' := by
  refine ⟨⟨[.connect dsn (some c),
    .execute c (Client.limitStatement limit) none result.isOk], ?_,
    sending_limit dsn c limit none _⟩, fun h => honest_execute (honest_connect h hmade) hset⟩
  rw [Execution.execute_log hset, Execution.connect_log hmade, List.append_assoc]
  rfl

theorem asks_close (limit : Option Int) (c : Connection) (s : Server) :
    Asks limit [] s (s.close c).2 := by
  rw [Server.close_eq]
  exact ⟨⟨_, rfl, sending_close c⟩, fun h => ⟨h.connects, h.replies⟩⟩

/-! ### Single statements -/

variable {x x' : Execution} {statement outcome : String}

theorem asks_release (limit : Option Int) (x : Execution) :
    Asks limit [] x.server (Client.release x).server := by
  unfold Client.release
  split
  · exact asks_close limit _ x.server
  · exact .refl limit x.server

theorem asks_settle (limit : Option Int) (failure : ServerError) (x : Execution) :
    Asks limit [] x.server (Client.settle failure x).2.server := by
  unfold Client.settle
  dsimp only
  split
  · exact asks_release limit x
  · exact .refl limit x.server

/-- To come to a connection no statement is sent but the one that sets the limit. -/
theorem asks_open? (client : Client) (x : Execution) :
    Asks client.limit [] x.server (client.open? x).2.server ∧
      (x.server.Honest →
        ∀ failure, (client.open? x).1 = .error failure → failure.name ≠ "ok") := by
  have hopens := Execution.opens_open? client x
  generalize client.open? x = result at hopens
  cases hopens with
  | held => exact ⟨.refl _ _, nofun⟩
  | refused idle refused =>
    refine ⟨⟨⟨_, (Execution.serves_refused x.held refused).log, sending_refused _⟩,
      fun hx => honest_connect hx refused⟩, fun hx failure heq => ?_⟩
    cases heq
    exact hx.connect refused
  | made idle unlimited made =>
    rw [unlimited]
    exact ⟨⟨⟨_, Execution.connect_log made, sending_unlimited _ _⟩,
      fun hx => honest_connect hx made⟩, nofun⟩
  | limited idle limited made set =>
    rw [limited]
    exact ⟨asks_limit made set, nofun⟩
  | forgotten idle limited made refused =>
    rw [limited]
    refine ⟨asks_limit made refused, fun hx failure heq => ?_⟩
    cases heq
    exact (honest_connect hx made).execute refused

/-- How a statement is counted: as a success exactly if it was sent and succeeded. -/
inductive Counted (statement : String) : List (String × Bool) → String → Prop where
  | unsent {outcome : String} (failed : outcome ≠ "ok") : Counted statement [] outcome
  | refused {outcome : String} (failed : outcome ≠ "ok") :
      Counted statement [(statement, false)] outcome
  | done : Counted statement [(statement, true)] "ok"

theorem counted_execute (client : Client) (statement : String) (hx : x.server.Honest) :
    ∃ sent, Asks client.limit sent x.server (client.execute statement x).2.server ∧
      Counted statement sent (client.execute statement x).1 := by
  obtain ⟨hopen, hfailure⟩ := asks_open? client x
  unfold Client.execute
  generalize client.open? x = result at hopen hfailure
  obtain ⟨failure | c, x₁⟩ := result
  · -- without a connection the statement is not sent, and the error of the opening is counted
    exact ⟨_, hopen.trans (asks_settle _ failure x₁), .unsent (hfailure hx failure rfl)⟩
  · dsimp only
    generalize hrun : x₁.server.execute c statement none = result
    have hsent := hopen.trans (asks_execute client.limit hrun)
    obtain ⟨failure | ⟨⟩, server⟩ := result
    · exact ⟨_, hsent.trans (asks_settle _ failure { x₁ with server }),
        .refused ((hopen.honest hx).execute hrun)⟩
    · exact ⟨_, hsent, .done⟩

/-! ### Runs -/

/-- Each outcome is a success or a failure, and the counts of the outcomes add up. -/
structure Statistics.Balanced (s : Statistics) : Prop where
  total : s.total = s.success + s.failed
  outcomes : s.outcomes.values.sum = s.total

theorem Statistics.balanced_empty : empty.Balanced := ⟨rfl, rfl⟩

theorem Statistics.total_record (stats : Statistics) (outcome : String) :
    (stats.record outcome).total = stats.total + 1 := rfl

theorem Statistics.Balanced.record {stats : Statistics} (h : stats.Balanced) (outcome : String) :
    (stats.record outcome).Balanced where
  total := by
    have htotal := h.total
    unfold Statistics.record
    dsimp only
    split <;> omega
  outcomes := by
    unfold Statistics.record
    rw [OrderedMap.sum_values_count, h.outcomes]
    rfl

theorem Counted.success_record (h : Counted statement sent outcome) (stats : Statistics) :
    (stats.record outcome).success = stats.success + (sent.filter (·.2)).length := by
  unfold Statistics.record Statistics.success?
  cases h with
  | unsent failed | refused failed => simp [failed]
  | done => rfl

theorem Counted.sublist (h : Counted statement sent outcome) :
    (sent.map (·.1)).Sublist [statement] := by
  cases h with
  | unsent => exact List.nil_sublist _
  | refused | done => exact List.Sublist.refl _

variable {e : Executor}

theorem require_text (statement : String) :
    require .noAttribute (Json.text statement).text? = .ok statement := rfl

theorem runFrom_blank (h : Text.isBlankText statement = true) (rest : List Json)
    (stats : Statistics) (x : Execution) :
    e.runFrom (.text statement :: rest) stats x = e.runFrom rest stats x := by
  rw [Executor.runFrom]
  split
  · rfl
  · rw [attempt_bind_eq (attempt_lift_eq (require_text statement)), if_pos h]

theorem runFrom_text (hlimit : e.limit = .ok limit) (h : Text.isBlankText statement = false)
    (rest : List Json) (stats : Statistics) (x : Execution) :
    e.runFrom (.text statement :: rest) stats x =
      e.runFrom rest (stats.record ((Client.mk e.dsn limit).execute statement x).1)
        ((Client.mk e.dsn limit).execute statement x).2 := by
  have hfilled : (Json.text statement).isFilled = true := by
    by_contra hempty
    have hnil : statement = "" := by simpa [Json.isFilled] using hempty
    rw [hnil] at h
    cases h
  have hexecute : e.execute (.text statement) x =
      .ok ((Client.mk e.dsn limit).execute statement x).1
        ((Client.mk e.dsn limit).execute statement x).2 := by
    unfold Executor.execute
    rw [hlimit]
  rw [Executor.runFrom, if_neg (by simp [hfilled]),
    attempt_bind_eq (attempt_lift_eq (require_text statement)), if_neg (by simp [h]),
    attempt_bind_eq hexecute]

/-- A run ends, asks for the statements that are not blank in order, and counts every one. -/
theorem runFrom_accounts (hlimit : e.limit = .ok limit) (statements : List String)
    (stats : Statistics) (x : Execution) (hx : x.server.Honest) (hstats : stats.Balanced) :
    ∃ stats' x' sent, e.runFrom (statements.map .text) stats x = .ok stats' x' ∧
      Asks limit sent x.server x'.server ∧
      (sent.map (·.1)).Sublist (statements.filter (!Text.isBlankText ·)) ∧ stats'.Balanced ∧
      stats'.total = stats.total + (statements.filter (!Text.isBlankText ·)).length ∧
      stats'.success = stats.success + (sent.filter (·.2)).length := by
  induction statements generalizing stats x with
  | nil => exact ⟨stats, x, [], rfl, .refl _ _, List.nil_sublist _, hstats, rfl, rfl⟩
  | cons statement statements ih =>
    cases hblank : Text.isBlankText statement with
    | true =>
      obtain ⟨stats', x', sent, hrun, hrest⟩ := ih stats x hx hstats
      rw [List.filter_cons_of_neg (by simp [hblank])]
      exact ⟨stats', x', sent, by rw [List.map_cons, runFrom_blank hblank, hrun], hrest⟩
    | false =>
      -- what the rest of the run sends comes after what this statement sends
      obtain ⟨sent₁, hasks₁, hcounted⟩ :=
        counted_execute (Client.mk e.dsn limit) statement hx
      obtain ⟨stats', x', sent, hrun, hasks, hsublist, hbalanced, htotal, hsuccess⟩ :=
        ih _ _ (hasks₁.honest hx) (hstats.record _)
      rw [List.filter_cons_of_pos (by simp [hblank])]
      refine ⟨stats', x', sent₁ ++ sent, ?_, hasks₁.trans hasks, ?_, hbalanced, ?_, ?_⟩
      · rw [List.map_cons, runFrom_text hlimit hblank, hrun]
      · rw [List.map_append]
        exact hcounted.sublist.append hsublist
      · rw [htotal, Statistics.total_record, List.length_cons, Nat.add_right_comm, Nat.add_assoc]
      · rw [hsuccess, hcounted.success_record, List.filter_append, List.length_append,
          Nat.add_assoc]

/-- Whatever the server answers, a run ends with each statement that is not blank counted once. What
was sent is some of them in order, and the successes are those that were sent and succeeded. -/
theorem run_accounts (e : Executor) {limit : Option Int} (hlimit : e.limit = .ok limit)
    (statements : List String) (x : Execution) (hx : x.server.Honest) :
    ∃ stats x' events, e.run (statements.map .text) x = .ok stats x' ∧
      x'.server.log = x.server.log ++ events ∧
      let asked := statements.filter (!Text.isBlankText ·)
      let sent := sentStatements limit events
      (sent.map (·.1)).Sublist asked ∧ stats.total = asked.length ∧
        stats.total = stats.success + stats.failed ∧ stats.outcomes.values.sum = stats.total ∧
        stats.success = (sent.filter (·.2)).length := by
  obtain ⟨stats, x', sent, hrun, hasks, hsublist, hbalanced, htotal, hsuccess⟩ :=
    runFrom_accounts hlimit statements .empty x hx Statistics.balanced_empty
  obtain ⟨events, hlog, hsending⟩ := hasks.log
  refine ⟨stats, x', events, hrun, hlog, ?_⟩
  rw [hsending.sentStatements_eq]
  exact ⟨hsublist, htotal.trans (Nat.zero_add _), hbalanced.total, hbalanced.outcomes,
    hsuccess.trans (Nat.zero_add _)⟩

/-- The second of four statements is refused, the connection is lost at the third and there is none
for the last. -/
def losing : Execution where
  server := .answering [.ok, .error ⟨"OperationalError", true⟩]
    [.ok, .ok, .error ⟨"SyntaxError", false⟩, .error ⟨"AdminShutdown", true⟩] [] fun _ => none
  held := none

theorem honest_losing : losing.server.Honest where
  connects e he := by
    simp only [losing, Server.answering, List.mem_cons, List.not_mem_nil, or_false, reduceCtorEq,
      false_or, Reply.error.injEq] at he
    subst he
    decide
  replies e he := by
    simp only [losing, Server.answering, List.mem_cons, List.not_mem_nil, or_false, reduceCtorEq,
      false_or, Reply.error.injEq] at he
    rcases he with rfl | rfl <;> decide

theorem run_accounts_losing :
    (Executor.mk (.text "db") (.int 1000)).limit = .ok (some 1000) ∧ losing.server.Honest ∧
      ∃ stats x' events,
        (Executor.mk (.text "db") (.int 1000)).run
          (["select 1", "selec", " ", "select 2", "select 3"].map .text) losing = .ok stats x' ∧
        x'.server.log = losing.server.log ++ events ∧ stats.total = 4 ∧
        stats.total = stats.success + stats.failed ∧
        stats.success = ((sentStatements (some 1000) events).filter (·.2)).length := by
  obtain ⟨stats, x', events, hrun, hlog, -, htotal, hbalanced, -, hsuccess⟩ :=
    run_accounts ⟨.text "db", .int 1000⟩ rfl ["select 1", "selec", " ", "select 2", "select 3"]
      losing honest_losing
  exact ⟨rfl, honest_losing, stats, x', events, hrun, hlog, htotal, hbalanced, hsuccess⟩

end ProbeForge.Database
