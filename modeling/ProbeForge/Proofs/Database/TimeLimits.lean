import ProbeForge.Proofs.Database.Accounts

/-!
# Time limits

Whatever an executor is asked for, the first statement on each connection sets the time limit, and
if that fails it is the only one. All that follows on the connection was asked for, so the executor
sets the limit once.
-/

namespace ProbeForge.Database

/-! ### Statements on a connection -/

/-- What a log says was executed on a connection, each statement with whether it succeeded. -/
def executedOn (c : Connection) (log : List Event) : List (String × Bool) :=
  log.filterMap fun
    | .execute d sql _ succeeded => if d = c then some (sql, succeeded) else none
    | .connect .. | .close .. => none

theorem executedOn_append (c : Connection) (log more : List Event) :
    executedOn c (log ++ more) = executedOn c log ++ executedOn c more := List.filterMap_append

theorem executedOn_connect (c : Connection) (log : List Event) (dsn : Json)
    (made : Option Connection) : executedOn c (log ++ [.connect dsn made]) = executedOn c log :=
  (executedOn_append _ _ _).trans (List.append_nil _)

theorem executedOn_close (c : Connection) (log : List Event) (d : Connection) :
    executedOn c (log ++ [.close d]) = executedOn c log :=
  (executedOn_append _ _ _).trans (List.append_nil _)

variable {e : Executor} {asked more : List String} {sent : List (String × Bool)} {limit : Int}

/-- What may be executed on a connection: nothing, a limit that is refused, or a limit that is set
and then statements that were asked for. -/
inductive Executor.Guards (e : Executor) (asked : List String) : List (String × Bool) → Prop where
  | unused : Guards e asked []
  | refused {limit : Int} (given : e.limit = .ok (some limit)) :
      Guards e asked [(Client.limitStatement limit, false)]
  | limited {limit : Int} {probes : List (String × Bool)} (given : e.limit = .ok (some limit))
      (sublist : (probes.map (·.1)).Sublist asked) :
      Guards e asked ((Client.limitStatement limit, true) :: probes)

theorem Executor.Guards.mono (h : e.Guards asked sent) (hmore : asked.Sublist more) :
    e.Guards more sent := by
  cases h with
  | unused => exact .unused
  | refused given => exact .refused given
  | limited given sublist => exact .limited given (sublist.trans hmore)

/-- Where the limit was set, one more statement may follow. -/
theorem Executor.Guards.concat (h : e.Guards asked sent) {first : String}
    (hset : sent.head? = some (first, true)) (statement : String) (succeeded : Bool) :
    e.Guards (asked ++ [statement]) (sent ++ [(statement, succeeded)]) := by
  cases h with
  | unused | refused => cases hset
  | limited given sublist =>
    refine .limited given ?_
    rw [List.append_eq, List.map_append]
    exact sublist.append (List.Sublist.refl _)

/-- Unless it is asked for as well, the limit is set once at most. -/
theorem Executor.Guards.count_le (h : e.Guards asked sent) (given : e.limit = .ok (some limit))
    (hasked : Client.limitStatement limit ∉ asked) :
    (sent.map (·.1)).count (Client.limitStatement limit) ≤ 1 := by
  cases h with
  | unused => exact Nat.zero_le _
  | refused => exact List.count_le_length
  | limited given' sublist =>
    cases given.symm.trans given'
    rw [List.map_cons, List.count_cons_self,
      List.count_eq_zero_of_not_mem fun hmem => hasked (sublist.subset hmem)]

/-- A new connection whose limit was answered. -/
theorem Executor.guards_limit (given : e.limit = .ok (some limit)) (asked : List String)
    (succeeded : Bool) : e.Guards asked [(Client.limitStatement limit, succeeded)] := by
  cases succeeded with
  | false => exact .refused given
  | true => exact .limited given (List.nil_sublist _)

/-! ### Executions -/

namespace Execution

variable {x : Execution} {s s' : Server} {c : Connection}

/-- Every connection is guarded, and the one that is held has its limit. -/
structure Guarded (e : Executor) (asked : List String) (x : Execution) : Prop where
  unused : ∀ c, x.server.made ≤ c → executedOn c x.server.log = []
  guards : ∀ c, e.Guards asked (executedOn c x.server.log)
  held : ∀ c, x.held = some c → ∃ first, (executedOn c x.server.log).head? = some (first, true)

theorem Guarded.mono (h : x.Guarded e asked) (hmore : asked.Sublist more) : x.Guarded e more :=
  ⟨h.unused, fun c => (h.guards c).mono hmore, h.held⟩

/-- A request other than a statement. -/
theorem Guarded.quiet (h : x.Guarded e asked) (hmade : x.server.made ≤ s.made)
    (hsame : ∀ c, executedOn c s.log = executedOn c x.server.log) :
    Guarded e asked { x with server := s } where
  unused c hc := (hsame c).trans (h.unused c (Nat.le_trans hmade hc))
  guards c := (hsame c).symm ▸ h.guards c
  held c hc := (hsame c).symm ▸ h.held c hc

theorem made_connect {dsn : Json} {result : Except ServerError Connection}
    (h : s.connect dsn = (result, s')) : s.made ≤ s'.made := by
  have hconnects := Server.connect_connects dsn s
  rw [h] at hconnects
  cases hconnects with
  | refused => exact Nat.le_refl _
  | made => exact Nat.le_succ _

theorem Guarded.connect (h : x.Guarded e asked) {dsn : Json}
    {result : Except ServerError Connection} (hrun : x.server.connect dsn = (result, s)) :
    Guarded e asked { x with server := s } := by
  refine h.quiet (made_connect hrun) fun c => ?_
  have hconnects := Server.connect_connects dsn x.server
  rw [hrun] at hconnects
  cases hconnects <;> exact executedOn_connect c _ _ _

theorem Guarded.release (h : x.Guarded e asked) : Guarded e asked (Client.release x) := by
  unfold Client.release
  split
  · rename_i c _
    have hclosed : Guarded e asked { x with server := (x.server.close c).2 } := by
      rw [Server.close_eq]
      exact h.quiet (Nat.le_refl _) fun d => executedOn_close d _ _
    exact ⟨hclosed.unused, hclosed.guards, nofun⟩
  · exact h

theorem Guarded.settle (h : x.Guarded e asked) (failure : ServerError) :
    Guarded e asked (Client.settle failure x).2 := by
  unfold Client.settle
  dsimp only
  split
  · exact h.release
  · exact h

/-- One more statement was executed, on one connection. -/
structure Sends (c : Connection) (entry : String × Bool) (s s' : Server) : Prop where
  made : s'.made = s.made
  self : executedOn c s'.log = executedOn c s.log ++ [entry]
  others : ∀ d, d ≠ c → executedOn d s'.log = executedOn d s.log

theorem sends_execute {sql : String} {arguments : Option (List Json)}
    {result : Except ServerError Unit} (h : s.execute c sql arguments = (result, s')) :
    Sends c (sql, result.isOk) s s' where
  made := by
    have hexecutes := Server.execute_executes c sql arguments s
    rw [h] at hexecutes
    cases hexecutes <;> rfl
  self := by
    rw [execute_log h, executedOn_append]
    simp [executedOn]
  others d hd := by
    rw [execute_log h, executedOn_append]
    simp [executedOn, Ne.symm hd]

/-- A statement goes over the connection that is held. -/
theorem Guarded.sends (h : x.Guarded e asked) (hheld : x.held = some c) {statement : String}
    {succeeded : Bool} (hsends : Sends c (statement, succeeded) x.server s) :
    Guarded e (asked ++ [statement]) { x with server := s } := by
  obtain ⟨first, hset⟩ := h.held c hheld
  refine ⟨fun d hd => ?_, fun d => ?_, fun d hd => ?_⟩
  · -- the connection was used before, so it is none of those to come
    have hunused := h.unused d (hsends.made ▸ hd)
    have hne : d ≠ c := by
      rintro rfl
      rw [hunused] at hset
      cases hset
    exact (hsends.others d hne).trans hunused
  · change e.Guards _ (executedOn d s.log)
    by_cases hdc : d = c
    · rw [hdc, hsends.self]
      exact (h.guards c).concat hset statement succeeded
    · rw [hsends.others d hdc]
      exact (h.guards d).mono (List.sublist_append_left _ _)
  · cases hheld.symm.trans hd
    refine ⟨first, ?_⟩
    change (executedOn c s.log).head? = _
    rw [hsends.self, List.head?_append, hset]
    rfl

/-- The limit is the first statement on a new connection. -/
theorem Guarded.prepares (h : x.Guarded e asked) (given : e.limit = .ok (some limit)) {dsn : Json}
    {succeeded : Bool} (hmade : x.server.connect dsn = (.ok c, s))
    (hsends : Sends c (Client.limitStatement limit, succeeded) s s') :
    Guarded e asked { x with server := s' } ∧
      executedOn c s'.log = [(Client.limitStatement limit, succeeded)] := by
  have hconnected := h.connect hmade
  obtain ⟨rfl, hnext⟩ : c = x.server.made ∧ s.made = x.server.made + 1 := by
    have hconnects := Server.connect_connects dsn x.server
    rw [hmade] at hconnects
    cases hconnects
    exact ⟨rfl, rfl⟩
  -- nothing was executed on a number that is just given out
  have hfresh : executedOn x.server.made s.log = [] := by
    rw [connect_log hmade, executedOn_connect]
    exact h.unused _ (Nat.le_refl _)
  have hself : executedOn x.server.made s'.log = [(Client.limitStatement limit, succeeded)] := by
    rw [hsends.self, hfresh]
    rfl
  refine ⟨⟨fun d hd => ?_, fun d => ?_, fun d hd => ?_⟩, hself⟩
  · have hd : s.made ≤ d := hsends.made ▸ hd
    have hne : d ≠ x.server.made := by omega
    exact (hsends.others d hne).trans (hconnected.unused d hd)
  · change e.Guards asked (executedOn d s'.log)
    by_cases hdc : d = x.server.made
    · rw [hdc, hself]
      exact Executor.guards_limit given asked succeeded
    · rw [hsends.others d hdc]
      exact hconnected.guards d
  · -- what is held was used before
    obtain ⟨first, hhead⟩ := hconnected.held d hd
    have hne : d ≠ x.server.made := by
      rintro rfl
      rw [show executedOn x.server.made _ = _ from hfresh] at hhead
      cases hhead
    exact ⟨first, (congrArg List.head? (hsends.others d hne)).trans hhead⟩

theorem Guarded.open? (h : x.Guarded e asked) (given : e.limit = .ok (some limit)) :
    Guarded e asked ((Client.mk e.dsn (some limit)).open? x).2 := by
  have hopens := opens_open? (Client.mk e.dsn (some limit)) x
  generalize (Client.mk e.dsn (some limit)).open? x = r at hopens
  cases hopens with
  | held => exact h
  | refused idle refused => exact h.connect refused
  | made idle unlimited => cases unlimited
  | limited idle limited made set =>
    cases limited
    obtain ⟨hguarded, hself⟩ := h.prepares given made (sends_execute set)
    exact ⟨hguarded.unused, hguarded.guards, fun d hd => by
      cases hd
      exact ⟨_, congrArg List.head? hself⟩⟩
  | forgotten idle limited made refused =>
    cases limited
    exact (h.prepares given made (sends_execute refused)).1

theorem Guarded.client (h : x.Guarded e asked) (given : e.limit = .ok (some limit))
    (statement : String) :
    Guarded e (asked ++ [statement])
      ((Client.mk e.dsn (some limit)).execute statement x).2 := by
  have hopen := h.open? given
  have hmore : asked.Sublist (asked ++ [statement]) := List.sublist_append_left _ _
  unfold Client.execute
  generalize hrun : (Client.mk e.dsn (some limit)).open? x = r at hopen ⊢
  obtain ⟨failure | c, x₁⟩ := r
  · exact (hopen.settle failure).mono hmore
  · dsimp only
    generalize hsent : x₁.server.execute c statement none = r
    have hsends := hopen.sends (open?_held hrun) (sends_execute hsent)
    obtain ⟨failure | ⟨⟩, server⟩ := r
    · exact hsends.settle failure
    · exact hsends

end Execution

/-! ### Calls -/

namespace Executor

/-- What an executor can be asked for. -/
inductive Call where
  | execute (statement : Json)
  | run (statements : List Json)
  | close

/-- The probes that a call asks for. -/
def Call.probes : Call → List String
  | execute statement => statement.text?.toList
  | run statements => (statements.filterMap (·.text?)).filter (!Text.isBlankText ·)
  | close => []

/-- The execution after a call, whether or not it is refused. -/
def perform (e : Executor) (x : Execution) : Call → Execution
  | .execute statement => after (e.execute statement) x
  | .run statements => after (e.run statements) x
  | .close => Client.release x

def performAll (e : Executor) (calls : List Call) (x : Execution) : Execution :=
  calls.foldl e.perform x

/-- A time limit that is given is a number or refused. -/
theorem limit_cases (hgiven : e.timeout.isFilled = true) :
    (∃ limit, e.limit = .ok (some limit)) ∨ ∃ fault, e.limit = .error fault := by
  unfold limit
  rw [if_pos hgiven]
  cases e.timeout.toInteger with
  | ok limit => exact .inl ⟨limit, rfl⟩
  | error fault => exact .inr ⟨fault, rfl⟩

end Executor

namespace Execution

variable {x : Execution}

theorem Guarded.execute (h : x.Guarded e asked) (hgiven : e.timeout.isFilled = true)
    (statement : Json) :
    Guarded e (asked ++ statement.text?.toList) (after (e.execute statement) x) := by
  have hmore : asked.Sublist (asked ++ statement.text?.toList) := List.sublist_append_left _ _
  unfold after Executor.execute
  rcases Executor.limit_cases hgiven with ⟨limit, hlimit⟩ | ⟨fault, hlimit⟩
  · rw [hlimit]
    cases statement with
    | text statement => exact h.client hlimit statement
    | _ =>
      have hopen := (h.open? hlimit).mono hmore
      dsimp only
      generalize (Client.mk e.dsn (some limit)).open? x = r at hopen ⊢
      obtain ⟨failure | c, x₁⟩ := r
      · exact hopen.settle failure
      · exact hopen
  · -- a limit that is no number is refused before anything is sent
    rw [hlimit]
    dsimp only
    generalize hrun : x.server.connect e.dsn = r
    have hconnected := (h.connect hrun).mono hmore
    obtain ⟨failure | c, s⟩ := r
    · exact hconnected.settle failure
    · exact hconnected

theorem Guarded.runFrom (h : x.Guarded e asked) (hgiven : e.timeout.isFilled = true)
    (statements : List Json) (stats : Statistics) :
    Guarded e (asked ++ (Executor.Call.run statements).probes)
      (after (e.runFrom statements stats) x) := by
  induction statements generalizing asked x stats with
  | nil => exact h.mono (List.sublist_append_left _ _)
  | cons statement statements ih =>
    have hrest : (Executor.Call.run statements).probes.Sublist
        (Executor.Call.run (statement :: statements)).probes :=
      ((List.sublist_cons_self statement statements).filterMap _).filter _
    -- a statement that is skipped only makes the list of what was asked longer
    have hskip : ∀ stats, Guarded e (asked ++ (Executor.Call.run (statement :: statements)).probes)
        (after (e.runFrom statements stats) x) := fun stats =>
      (ih h stats).mono (hrest.append_left asked)
    rw [Executor.runFrom]
    split
    · exact hskip stats
    · cases statement with
      | text statement =>
        rw [after_bind, attempt_lift_eq (require_text statement)]
        dsimp only
        cases hblank : Text.isBlankText statement with
        | true => exact hskip stats
        | false =>
          have hexecuted := h.execute hgiven (.text statement)
          have hprobes : (Executor.Call.run (.text statement :: statements)).probes =
              statement :: (Executor.Call.run statements).probes := by
            simp [Executor.Call.probes, Json.text?, hblank]
          rw [if_neg (by simp), after_bind, hprobes, List.append_cons]
          unfold after at hexecuted
          generalize e.execute (.text statement) x = r at hexecuted
          cases r with
          | ok outcome x₁ => exact ih hexecuted _
          | error fault x₁ => exact hexecuted.mono (List.sublist_append_left _ _)
      | _ => exact h.mono (List.sublist_append_left _ _)

theorem Guarded.perform (h : x.Guarded e asked) (hgiven : e.timeout.isFilled = true)
    (call : Executor.Call) : Guarded e (asked ++ call.probes) (e.perform x call) := by
  cases call with
  | execute statement => exact h.execute hgiven statement
  | run statements => exact h.runFrom hgiven statements .empty
  | close => exact h.release.mono (List.sublist_append_left _ _)

theorem Guarded.performAll (h : x.Guarded e asked) (hgiven : e.timeout.isFilled = true)
    (calls : List Executor.Call) :
    Guarded e (asked ++ calls.flatMap (·.probes)) (e.performAll calls x) := by
  induction calls generalizing asked x with
  | nil => simpa [Executor.performAll] using h
  | cons call calls ih =>
    rw [List.flatMap_cons, ← List.append_assoc]
    exact ih (h.perform hgiven call)

end Execution

namespace Executor

variable (connects replies : List Reply) (fetches : List Fetch)
  (closeErrors : Connection → Option ServerError)

theorem guarded_answering (e : Executor) :
    Execution.Guarded e [] ⟨Server.answering connects replies fetches closeErrors, none⟩ :=
  ⟨fun _ _ => rfl, fun _ => .unused, nofun⟩

/-- Whatever the server answers and the executor is asked for, statements are sent over a connection
only after its time limit was set, and the executor sets it once. -/
theorem probes_follow_limit (e : Executor) (hgiven : e.timeout.isFilled = true)
    (calls : List Call) (c : Connection) :
    let start := Server.answering connects replies fetches closeErrors
    let sent := executedOn c (e.performAll calls ⟨start, none⟩).server.log
    let asked := calls.flatMap (·.probes)
    e.Guards asked sent ∧ ∀ limit, e.limit = .ok (some limit) →
      Client.limitStatement limit ∉ asked →
        (sent.map (·.1)).count (Client.limitStatement limit) ≤ 1 := by
  intro start sent asked
  have hguards : e.Guards asked sent :=
    ((guarded_answering connects replies fetches closeErrors e).performAll hgiven calls).guards c
  exact ⟨hguards, fun limit given hasked => hguards.count_le given hasked⟩

/-- The limit is refused on the first connection, the second one is dropped and the third closed. -/
theorem probes_follow_limit_dropped :
    let e : Executor := ⟨.text "db", .int 1000⟩
    let start := Server.answering [] [.error ⟨"InternalError", false⟩, .ok, .drop] []
      fun _ => none
    let calls : List Call :=
      [.execute (.text "select 1"), .run [.text "select 2", .text " ", .text "select 3"], .close,
        .execute (.text "select 4")]
    let log := (e.performAll calls ⟨start, none⟩).server.log
    e.timeout.isFilled = true ∧ executedOn 0 log = [("SET statement_timeout = 1000", false)] ∧
      executedOn 1 log = [("SET statement_timeout = 1000", true), ("select 2", true)] ∧
      ∀ c, e.Guards (calls.flatMap (·.probes)) (executedOn c log) := by
  dsimp only
  exact ⟨rfl, by decide +kernel, by decide +kernel, fun c =>
    (probes_follow_limit [] [.error ⟨"InternalError", false⟩, .ok, .drop] [] (fun _ => none)
      ⟨.text "db", .int 1000⟩ rfl _ c).1⟩

end Executor

end ProbeForge.Database
