import ProbeForge.Database.Executor
import ProbeForge.Proofs.Outcome

/-!
# Connections that are left open

The log of a server says what was asked of it, so the server can be followed from one request to
the next by asking the same again. An executor that is used and then closed leaves no connection
open and never has two exactly when each new connection could be given its time limit; one that
could not is forgotten and stays open.
-/

namespace ProbeForge.Database

/-! ### Servers from request to request -/

/-- The same request once more. -/
def Event.again (s : Server) : Event → Server
  | .connect dsn _ => (s.connect dsn).2
  | .execute c sql arguments _ => (s.execute c sql arguments).2
  | .close c => (s.close c).2

namespace Server

variable {s s' start : Server} {c : Connection} {event : Event}

/-- The connection was made and neither closed nor dropped. -/
def IsOpen (s : Server) (c : Connection) : Prop := c < s.made ∧ c ∉ s.ended

instance (s : Server) (c : Connection) : Decidable (s.IsOpen c) :=
  inferInstanceAs (Decidable (c < s.made ∧ c ∉ s.ended))

/-- No two connections are open. -/
def AtMostOneOpen (s : Server) : Prop := ∀ c d, s.IsOpen c → s.IsOpen d → c = d

/-- The server after the requests of a log. -/
def replay (s : Server) (log : List Event) : Server := log.foldl Event.again s

theorem replay_append (s : Server) (log more : List Event) :
    s.replay (log ++ more) = (s.replay log).replay more := List.foldl_append

/-- What an attempt to connect comes to. -/
inductive Connects (dsn : Json) (s : Server) : Except ServerError Connection × Server → Prop where
  | refused (failure : ServerError) : Connects dsn s (.error failure,
      { s with connects := s.connects.tail, log := s.log ++ [.connect dsn none] })
  | made : Connects dsn s (.ok s.made,
      { s with
        connects := s.connects.tail, made := s.made + 1
        log := s.log ++ [.connect dsn (some s.made)] })

theorem connect_connects (dsn : Json) (s : Server) : Connects dsn s (s.connect dsn) := by
  unfold connect
  dsimp only
  split
  · exact .refused _
  · exact .made
  · exact .made

/-- What a statement comes to. -/
inductive Executes (c : Connection) (sql : String) (arguments : Option (List Json)) (s : Server) :
    Except ServerError Unit × Server → Prop where
  | done : Executes c sql arguments s (.ok (),
      { s with replies := s.replies.tail, log := s.log ++ [.execute c sql arguments true] })
  | dropped : Executes c sql arguments s (.ok (),
      { s with
        replies := s.replies.tail, ended := s.ended ++ [c]
        log := s.log ++ [.execute c sql arguments true] })
  | refused (failure : ServerError) : Executes c sql arguments s (.error failure,
      { s with replies := s.replies.tail, log := s.log ++ [.execute c sql arguments false] })

theorem execute_executes (c : Connection) (sql : String) (arguments : Option (List Json)) (s : Server) :
    Executes c sql arguments s (s.execute c sql arguments) := by
  unfold execute
  dsimp only
  split
  · exact .done
  · exact .dropped
  · exact .refused _

theorem close_eq (c : Connection) (s : Server) :
    (s.close c).2 = { s with log := s.log ++ [.close c], ended := s.ended ++ [c] } := by
  unfold close
  dsimp only
  split <;> rfl

/-- The log leads from the start to the server, and on the way no two connections were open. -/
structure Followed (start s : Server) : Prop where
  replayed : start.replay s.log = s
  moments : ∀ log, log <+: s.log → (start.replay log).AtMostOneOpen

theorem Followed.next (h : Followed start s) (hlog : s'.log = s.log ++ [event])
    (hagain : event.again s = s') (hone : s'.AtMostOneOpen) : Followed start s' := by
  have hreplayed : start.replay (s.log ++ [event]) = s' := by
    rw [replay_append, h.replayed]
    exact hagain
  refine ⟨hlog ▸ hreplayed, fun log hprefix => ?_⟩
  rcases List.prefix_concat_iff.mp (hlog ▸ hprefix) with rfl | hprefix
  · exact hreplayed.symm ▸ hone
  · exact h.moments log hprefix

end Server

/-! ### Limits in a log -/

namespace Executor

variable {e : Executor} {log : List Event} {c : Connection}

/-- What follows the making of a connection begins with its time limit being set, if there is one
to set. -/
def Limits (e : Executor) (c : Connection) (following : List Event) : Prop :=
  match e.limit with
  | .ok none => True
  | .ok (some limit) => following.head? = some (.execute c (Client.limitStatement limit) none true)
  | .error _ => False

/-- Every connection that was made was at once given the time limit. -/
def Prepares (e : Executor) (log : List Event) : Prop :=
  ∀ before dsn c following, log = before ++ .connect dsn (some c) :: following →
    e.Limits c following

theorem Limits.append {following : List Event} (h : e.Limits c following) (more : List Event) :
    e.Limits c (following ++ more) := by
  unfold Limits at h ⊢
  split at h
  · trivial
  · rw [List.head?_append, h]
    rfl
  · exact h.elim

theorem prepares_nil (e : Executor) : e.Prepares [] := fun before _ _ _ h => by
  cases before <;> cases h

theorem Prepares.append {more : List Event} (h : e.Prepares log)
    (hmore : ∀ before dsn c following, more = before ++ .connect dsn (some c) :: following →
      e.Limits c following) : e.Prepares (log ++ more) := by
  intro before dsn c following heq
  rcases List.append_eq_append_iff.mp heq with ⟨rest, hbefore, hrest⟩ | ⟨rest, hlog, hrest⟩
  · exact hmore rest dsn c following hrest
  · cases rest with
    | nil => exact hmore [] dsn c following hrest.symm
    | cons event rest =>
      obtain ⟨rfl, rfl⟩ := List.cons.inj hrest
      exact (h before dsn c rest hlog).append more

end Executor

/-! ### Executions -/

namespace Execution

variable {start s s' : Server} {e : Executor} {x x' : Execution} {c : Connection}

/-- Only the connection that is held may be open, and there never were two. -/
structure Sole (start : Server) (x : Execution) : Prop where
  followed : Server.Followed start x.server
  numbered : ∀ c ∈ x.server.ended, c < x.server.made
  known : ∀ c, x.held = some c → c < x.server.made
  opens : ∀ c, x.server.IsOpen c → x.held = some c

/-- Moreover every connection had its limit. -/
structure Tidy (start : Server) (e : Executor) (x : Execution) : Prop extends Sole start x where
  prepared : e.Prepares x.server.log

/-- A connection without its limit is open and not held. -/
structure Leaky (e : Executor) (x : Execution) : Prop where
  lost : ∃ c, x.server.IsOpen c ∧ x.held ≠ some c
  unprepared : ∀ more, ¬ e.Prepares (x.server.log ++ more)

def Accounted (start : Server) (e : Executor) (x : Execution) : Prop := x.Tidy start e ∨ x.Leaky e

theorem Sole.atMostOneOpen (h : x.Sole start) : x.server.AtMostOneOpen := fun c d hc hd =>
  Option.some.inj ((h.opens c hc).symm.trans (h.opens d hd))

/-- What is open and not held stays so. -/
structure Spares (x x' : Execution) : Prop where
  log : x.server.log <+: x'.server.log
  lost : ∀ c, x.server.IsOpen c → x.held ≠ some c → x'.server.IsOpen c ∧ x'.held ≠ some c

theorem Spares.refl (x : Execution) : Spares x x :=
  ⟨List.prefix_refl _, fun _ hopen hheld => ⟨hopen, hheld⟩⟩

theorem Spares.trans {x'' : Execution} (h : Spares x x') (h' : Spares x' x'') : Spares x x'' :=
  ⟨h.log.trans h'.log, fun c hopen hheld =>
    h'.lost c (h.lost c hopen hheld).1 (h.lost c hopen hheld).2⟩

theorem Leaky.spares (h : x.Leaky e) (hspares : Spares x x') : x'.Leaky e := by
  obtain ⟨c, hopen, hheld⟩ := h.lost
  obtain ⟨more, hlog⟩ := hspares.log
  refine ⟨⟨c, hspares.lost c hopen hheld⟩, fun rest => ?_⟩
  rw [← hlog, List.append_assoc]
  exact h.unprepared _

/-! ### Requests that make no connection -/

/-- A request that makes no connection and ends none but the one that is held. -/
structure Serves (held : Option Connection) (event : Event) (s s' : Server) : Prop where
  log : s'.log = s.log ++ [event]
  again : event.again s = s'
  joinless : ∀ dsn c, event ≠ .connect dsn (some c)
  made : s'.made = s.made
  ended : s'.ended = s.ended ∨ ∃ c, held = some c ∧ s'.ended = s.ended ++ [c]

theorem Serves.isOpen {held : Option Connection} {event : Event} (h : Serves held event s s')
    (hopen : s'.IsOpen c) : s.IsOpen c := by
  refine ⟨h.made ▸ hopen.1, fun hended => hopen.2 ?_⟩
  rcases h.ended with heq | ⟨d, -, heq⟩
  · exact heq ▸ hended
  · exact heq ▸ List.mem_append_left _ hended

theorem Serves.isOpen_of_ne {held : Option Connection} {event : Event} (h : Serves held event s s')
    (hopen : s.IsOpen c) (hc : held ≠ some c) : s'.IsOpen c := by
  refine ⟨h.made ▸ hopen.1, fun hended => hopen.2 ?_⟩
  rcases h.ended with heq | ⟨d, hheld, heq⟩
  · exact heq ▸ hended
  · rw [heq, List.mem_append, List.mem_singleton] at hended
    exact hended.resolve_right fun hcd => hc (hcd ▸ hheld)

theorem serves_execute (c : Connection) (sql : String) (arguments : Option (List Json))
    (s : Server) : ∃ event, Serves (some c) event s (s.execute c sql arguments).2 := by
  have hexecutes := Server.execute_executes c sql arguments s
  generalize hrun : s.execute c sql arguments = r at hexecutes
  cases hexecutes with
  | done =>
    exact ⟨_, rfl, congrArg Prod.snd hrun, nofun, rfl, .inl rfl⟩
  | dropped =>
    exact ⟨_, rfl, congrArg Prod.snd hrun, nofun, rfl, .inr ⟨c, rfl, rfl⟩⟩
  | refused failure =>
    exact ⟨_, rfl, congrArg Prod.snd hrun, nofun, rfl, .inl rfl⟩

theorem serves_close (c : Connection) (s : Server) :
    Serves (some c) (.close c) s (s.close c).2 where
  log := by rw [Server.close_eq]
  again := rfl
  joinless := nofun
  made := by rw [Server.close_eq]
  ended := .inr ⟨c, rfl, by rw [Server.close_eq]⟩

theorem Sole.serves {event : Event} (h : x.Sole start)
    (hserves : Serves x.held event x.server s') : Sole start { x with server := s' } where
  followed := h.followed.next hserves.log hserves.again fun c d hc hd =>
    h.atMostOneOpen c d (hserves.isOpen hc) (hserves.isOpen hd)
  numbered c hc := by
    change c < s'.made
    rw [hserves.made]
    rcases hserves.ended with heq | ⟨d, hheld, heq⟩
    · exact h.numbered c (heq ▸ hc)
    · rcases List.mem_append.mp (heq ▸ hc) with hc | hc
      · exact h.numbered c hc
      · exact List.mem_singleton.mp hc ▸ h.known d hheld
  known c hc := hserves.made ▸ h.known c hc
  opens c hc := h.opens c (hserves.isOpen hc)

theorem Tidy.serves {event : Event} (h : x.Tidy start e)
    (hserves : Serves x.held event x.server s') : Tidy start e { x with server := s' } where
  toSole := h.toSole.serves hserves
  prepared := by
    change e.Prepares s'.log
    rw [hserves.log]
    refine h.prepared.append fun before dsn c following heq => ?_
    cases before with
    | nil => exact absurd (List.cons.inj heq).1 (hserves.joinless dsn c)
    | cons event before => exact absurd (List.cons.inj heq).2 (by simp)

theorem Spares.serves {event : Event} (hserves : Serves x.held event x.server s') :
    Spares x { x with server := s' } :=
  ⟨⟨_, hserves.log.symm⟩, fun _ hopen hheld => ⟨hserves.isOpen_of_ne hopen hheld, hheld⟩⟩

theorem tidy_release (h : x.Tidy start e) : Tidy start e (Client.release x) := by
  unfold Client.release
  split
  · rename_i c hheld
    have hserves := serves_close c x.server
    have hclosed := h.serves (hheld ▸ hserves)
    have hnone : ∀ d, ¬ (x.server.close c).2.IsOpen d := by
      intro d hd
      -- only what was held could be open
      have hcd : c = d := Option.some.inj (hheld.symm.trans (hclosed.opens d hd))
      refine hd.2 ?_
      rw [Server.close_eq, hcd]
      exact List.mem_append_right _ (List.mem_singleton_self d)
    exact { hclosed with
      known := nofun
      opens := fun d hd => (hnone d hd).elim }
  · exact h

theorem spares_release (x : Execution) : Spares x (Client.release x) := by
  unfold Client.release
  split
  · rename_i c hheld
    have hspares := Spares.serves (x := x) (hheld ▸ serves_close c x.server)
    exact ⟨hspares.log, fun d hopen hd => ⟨(hspares.lost d hopen hd).1, nofun⟩⟩
  · exact .refl x

theorem not_isOpen_release (h : x.Tidy start e) (c : Connection) :
    ¬ (Client.release x).server.IsOpen c := by
  intro hopen
  have hnone : (Client.release x).held = none := by
    unfold Client.release
    split
    · rfl
    · assumption
  cases hnone.symm.trans ((tidy_release h).opens c hopen)

/-! ### New connections -/

theorem serves_refused {dsn : Json} {failure : ServerError} (held : Option Connection)
    (h : s.connect dsn = (.error failure, s')) : Serves held (.connect dsn none) s s' := by
  have hconnects := Server.connect_connects dsn s
  rw [h] at hconnects
  cases hconnects
  exact ⟨rfl, congrArg Prod.snd h, nofun, rfl, .inl rfl⟩

theorem Sole.idle (h : x.Sole start) (hlive : Client.live? x = none) (c : Connection) :
    ¬ x.server.IsOpen c := by
  intro hopen
  have hended := Option.filter_eq_none_iff.mp hlive c (h.opens c hopen)
  exact hopen.2 (by simpa [Server.hasEnded] using hended)

/-- A connection is made while none is open. -/
theorem Sole.makes {dsn : Json} (h : x.Sole start) (hlive : Client.live? x = none)
    (hmade : x.server.connect dsn = (.ok c, s')) : Sole start ⟨s', some c⟩ := by
  have hconnects := Server.connect_connects dsn x.server
  rw [hmade] at hconnects
  cases hconnects
  have hopens : ∀ d, d < x.server.made + 1 ∧ d ∉ x.server.ended → d = x.server.made := by
    rintro d ⟨hlt, hended⟩
    rcases Nat.lt_succ_iff_lt_or_eq.mp hlt with hlt | rfl
    · exact absurd ⟨hlt, hended⟩ (h.idle hlive d)
    · rfl
  refine ⟨h.followed.next rfl (congrArg Prod.snd hmade) fun d d' hd hd' => ?_, ?_, ?_, ?_⟩
  · exact (hopens d hd).trans (hopens d' hd').symm
  · exact fun d hd => Nat.lt_succ_of_lt (h.numbered d hd)
  · exact fun d hd => Option.some.inj hd ▸ Nat.lt_succ_self _
  · exact fun d hd => congrArg some (hopens d hd).symm

/-- A connection that was made and is not held is open and stays so. -/
theorem Sole.lost {dsn : Json} (h : x.Sole start)
    (hmade : x.server.connect dsn = (.ok c, s')) : s'.IsOpen c ∧ x.held ≠ some c := by
  have hconnects := Server.connect_connects dsn x.server
  rw [hmade] at hconnects
  cases hconnects
  exact ⟨⟨Nat.lt_succ_self _, fun hended => Nat.lt_irrefl _ (h.numbered _ hended)⟩,
    fun hheld => Nat.lt_irrefl _ (h.known _ hheld)⟩

/-- The ways in which a client comes to a connection, or fails to. -/
inductive Opens (client : Client) (x : Execution) :
    Except ServerError Connection × Execution → Prop where
  | held {c : Connection} (live : Client.live? x = some c) : Opens client x (.ok c, x)
  | refused {failure : ServerError} {s : Server} (idle : Client.live? x = none)
      (refused : x.server.connect client.dsn = (.error failure, s)) :
      Opens client x (.error failure, ⟨s, x.held⟩)
  | made {c : Connection} {s : Server} (idle : Client.live? x = none)
      (unlimited : client.limit = none) (made : x.server.connect client.dsn = (.ok c, s)) :
      Opens client x (.ok c, ⟨s, some c⟩)
  | limited {c : Connection} {limit : Int} {s s' : Server} (idle : Client.live? x = none)
      (limited : client.limit = some limit) (made : x.server.connect client.dsn = (.ok c, s))
      (set : s.execute c (Client.limitStatement limit) none = (.ok (), s')) :
      Opens client x (.ok c, ⟨s', some c⟩)
  | forgotten {c : Connection} {limit : Int} {failure : ServerError} {s s' : Server}
      (idle : Client.live? x = none) (limited : client.limit = some limit)
      (made : x.server.connect client.dsn = (.ok c, s))
      (refused : s.execute c (Client.limitStatement limit) none = (.error failure, s')) :
      Opens client x (.error failure, ⟨s', x.held⟩)

theorem opens_open? (client : Client) (x : Execution) : Opens client x (client.open? x) := by
  unfold Client.open?
  cases hlive : Client.live? x with
  | some c => exact .held hlive
  | none =>
    dsimp only
    generalize hmade : x.server.connect client.dsn = r
    obtain ⟨failure | c, s⟩ := r
    · exact .refused hlive hmade
    · dsimp only
      cases hlimit : client.limit with
      | none => exact .made hlive hlimit hmade
      | some limit =>
        dsimp only
        generalize hset : s.execute c (Client.limitStatement limit) none = r
        obtain ⟨failure | ⟨⟩, s'⟩ := r
        · exact .forgotten hlive hlimit hmade hset
        · exact .limited hlive hlimit hmade hset

theorem connect_log {dsn : Json} (h : s.connect dsn = (.ok c, s')) :
    s'.log = s.log ++ [.connect dsn (some c)] := by
  have hconnects := Server.connect_connects dsn s
  rw [h] at hconnects
  cases hconnects
  rfl

theorem execute_log {sql : String} {arguments : Option (List Json)}
    {result : Except ServerError Unit} (h : s.execute c sql arguments = (result, s')) :
    s'.log = s.log ++ [.execute c sql arguments result.isOk] := by
  have hexecutes := Server.execute_executes c sql arguments s
  rw [h] at hexecutes
  cases hexecutes <;> rfl

/-- A statement that is refused drops nothing. -/
theorem isOpen_refused {sql : String} {arguments : Option (List Json)} {failure : ServerError}
    (h : s.execute c sql arguments = (.error failure, s')) {d : Connection} (hopen : s.IsOpen d) :
    s'.IsOpen d := by
  have hexecutes := Server.execute_executes c sql arguments s
  rw [h] at hexecutes
  cases hexecutes
  exact hopen

theorem isOpen_connect {dsn : Json} (h : s.connect dsn = (.ok c, s')) {d : Connection}
    (hopen : s.IsOpen d) : s'.IsOpen d ∧ d ≠ c := by
  have hconnects := Server.connect_connects dsn s
  rw [h] at hconnects
  cases hconnects
  exact ⟨⟨Nat.lt_succ_of_lt hopen.1, hopen.2⟩, Nat.ne_of_lt hopen.1⟩

theorem spares_connect {dsn : Json} (h : x.server.connect dsn = (.ok c, s')) :
    Spares x ⟨s', some c⟩ :=
  ⟨⟨_, (connect_log h).symm⟩, fun _ hopen _ => ⟨(isOpen_connect h hopen).1, fun heq =>
    (isOpen_connect h hopen).2 (Option.some.inj heq).symm⟩⟩

theorem spares_open? (client : Client) (x : Execution) : Spares x (client.open? x).2 := by
  have hopens := opens_open? client x
  generalize client.open? x = r at hopens
  cases hopens with
  | held live => exact .refl x
  | refused idle refused => exact .serves (serves_refused x.held refused)
  | made idle unlimited made => exact spares_connect made
  | @limited c limit s s' idle limited made set =>
    obtain ⟨event, hserves⟩ := serves_execute c (Client.limitStatement limit) none s
    rw [set] at hserves
    exact (spares_connect made).trans (.serves hserves)
  | @forgotten c limit failure s s' idle limited made refused =>
    obtain ⟨event, hserves⟩ := serves_execute c (Client.limitStatement limit) none s
    rw [refused] at hserves
    refine ⟨⟨[.connect client.dsn (some c), event], ?_⟩, fun d hopen hheld => ⟨?_, hheld⟩⟩
    · rw [hserves.log, connect_log made, List.append_assoc]
      rfl
    · obtain ⟨hopen', hne⟩ := isOpen_connect made hopen
      exact hserves.isOpen_of_ne hopen' fun heq => hne (Option.some.inj heq).symm

theorem open?_held {client : Client} (h : client.open? x = (.ok c, x')) : x'.held = some c := by
  have hopens := opens_open? client x
  rw [h] at hopens
  cases hopens with
  | held live => exact (Option.filter_eq_some_iff.mp live).1
  | made | limited => rfl

variable {limit : Option Int}

/-- A client comes to a connection with its limit, or loses the one whose limit was refused. -/
theorem accounted_open? (hlimit : e.limit = .ok limit) (h : x.Tidy start e) :
    Accounted start e ((Client.mk e.dsn limit).open? x).2 := by
  have hopens := opens_open? (Client.mk e.dsn limit) x
  generalize (Client.mk e.dsn limit).open? x = r at hopens
  -- only a connection whose limit was refused is lost
  cases hopens with
  | held live => exact .inl h
  | refused idle refused => exact .inl (h.serves (serves_refused x.held refused))
  | @made c s idle unlimited made =>
    cases unlimited
    refine .inl ⟨h.toSole.makes idle made, ?_⟩
    change e.Prepares s.log
    rw [connect_log made]
    refine h.prepared.append fun _ _ _ _ _ => ?_
    rw [Executor.Limits, hlimit]
    trivial
  | @limited c n s s' idle limited made set =>
    cases limited
    obtain ⟨event, hserves⟩ := serves_execute c (Client.limitStatement n) none s
    rw [set] at hserves
    refine .inl ⟨(h.toSole.makes idle made).serves hserves, ?_⟩
    change e.Prepares s'.log
    rw [execute_log set, connect_log made, List.append_assoc]
    refine h.prepared.append fun before dsn d following heq => ?_
    match before with
    | [] =>
      cases heq
      rw [Executor.Limits, hlimit]
      rfl
    | [_] => cases heq
    | _ :: _ :: _ => simp at heq
  | @forgotten c n failure s s' idle limited made refused =>
    cases limited
    obtain ⟨hopen, hheld⟩ := h.toSole.lost made
    refine .inr ⟨⟨c, isOpen_refused refused hopen, hheld⟩, fun more hprepared => ?_⟩
    have hlimits := hprepared x.server.log e.dsn c
      (.execute c (Client.limitStatement n) none false :: more) (by
        rw [execute_log refused, connect_log made]
        simp [Except.isOk, Except.toBool])
    rw [Executor.Limits, hlimit] at hlimits
    cases hlimits

theorem Accounted.extend (h : x.Accounted start e) (hspares : Spares x x')
    (htidy : x.Tidy start e → x'.Accounted start e) : x'.Accounted start e :=
  h.elim htidy fun hleaky => .inr (hleaky.spares hspares)

theorem spares_settle (failure : ServerError) (x : Execution) :
    Spares x (Client.settle failure x).2 := by
  unfold Client.settle
  dsimp only
  split
  · exact spares_release x
  · exact .refl x

theorem tidy_settle (failure : ServerError) (h : x.Tidy start e) :
    Tidy start e (Client.settle failure x).2 := by
  unfold Client.settle
  dsimp only
  split
  · exact tidy_release h
  · exact h

theorem Accounted.settle (h : x.Accounted start e) (failure : ServerError) :
    Accounted start e (Client.settle failure x).2 :=
  h.extend (spares_settle failure x) fun htidy => .inl (tidy_settle failure htidy)

theorem Accounted.open? (h : x.Accounted start e) (hlimit : e.limit = .ok limit) :
    Accounted start e ((Client.mk e.dsn limit).open? x).2 :=
  h.extend (spares_open? _ x) (accounted_open? hlimit)

theorem Accounted.client (h : x.Accounted start e) (hlimit : e.limit = .ok limit)
    (statement : String) :
    Accounted start e ((Client.mk e.dsn limit).execute statement x).2 := by
  have hopen := h.open? hlimit
  unfold Client.execute
  generalize hrun : (Client.mk e.dsn limit).open? x = r at hopen ⊢
  obtain ⟨failure | c, x₁⟩ := r
  · exact hopen.settle failure
  · have hheld := open?_held hrun
    obtain ⟨event, hserves⟩ := serves_execute c statement none x₁.server
    have hserved : Accounted start e
        { x₁ with server := (x₁.server.execute c statement none).2 } :=
      hopen.extend (.serves (hheld ▸ hserves)) fun htidy => .inl (htidy.serves (hheld ▸ hserves))
    dsimp only
    generalize x₁.server.execute c statement none = r at hserved ⊢
    obtain ⟨failure | ⟨⟩, server⟩ := r
    · exact hserved.settle failure
    · exact hserved

/-- A connection whose limit is no number is forgotten as well. -/
theorem accounted_connect {fault : Fault} (hlimit : e.limit = .error fault)
    (h : x.Accounted start e) :
    Accounted start e { x with server := (x.server.connect e.dsn).2 } := by
  generalize hrun : x.server.connect e.dsn = r
  obtain ⟨failure | c, s⟩ := r
  · have hserves := serves_refused x.held hrun
    exact h.extend (.serves hserves) fun htidy => .inl (htidy.serves hserves)
  · refine h.extend ⟨⟨_, (connect_log hrun).symm⟩, fun d hopen hheld =>
      ⟨(isOpen_connect hrun hopen).1, hheld⟩⟩ fun htidy => .inr ⟨⟨c, htidy.toSole.lost hrun⟩,
        fun more hprepared => ?_⟩
    have hlimits := hprepared x.server.log e.dsn c more (by
      rw [connect_log hrun, List.append_assoc]
      rfl)
    rw [Executor.Limits, hlimit] at hlimits
    exact hlimits

/-- Whatever an executor is asked to execute, connections are accounted for. -/
theorem Accounted.execute (h : x.Accounted start e) (statement : Json) :
    Accounted start e (after (e.execute statement) x) := by
  unfold after Executor.execute
  cases hlimit : e.limit with
  | error fault =>
    have hconnect := accounted_connect hlimit h
    dsimp only
    generalize x.server.connect e.dsn = r at hconnect ⊢
    obtain ⟨failure | c, s⟩ := r
    · exact hconnect.settle failure
    · exact hconnect
  | ok limit =>
    have hopen := h.open? hlimit
    have hclient := h.client hlimit
    cases statement with
    | text statement => exact hclient statement
    | _ =>
      dsimp only
      generalize (Client.mk e.dsn limit).open? x = r at hopen ⊢
      obtain ⟨failure | c, x₁⟩ := r
      · exact hopen.settle failure
      · exact hopen

end Execution

/-! ### Sessions -/

namespace Executor

/-- The execution of some statements, one after the other, and the closing at the end. A statement
that is refused does not keep the next one from being executed. -/
def session (e : Executor) (statements : List Json) (x : Execution) : Execution :=
  Client.release (statements.foldl (fun x statement => after (e.execute statement) x) x)

end Executor

/-- No two connections were open at any moment of the log, and in the end none is. -/
def Server.LeakFree (start final : Server) : Prop :=
  (∀ log, log <+: final.log → (start.replay log).AtMostOneOpen) ∧ ∀ c, ¬ final.IsOpen c

namespace Executor

variable (connects replies : List Reply) (fetches : List Fetch)
  (closeErrors : Connection → Option ServerError)

theorem tidy_answering (e : Executor) :
    Execution.Tidy (Server.answering connects replies fetches closeErrors) e
      ⟨Server.answering connects replies fetches closeErrors, none⟩ where
  followed := ⟨rfl, fun log hlog c d hc => by
    rw [List.prefix_nil.mp hlog] at hc
    exact absurd hc.1 (Nat.not_lt_zero c)⟩
  numbered := nofun
  known := nofun
  opens c hc := absurd hc.1 (Nat.not_lt_zero c)
  prepared := prepares_nil e

/-- Whatever the server answers, connections are kept apart and closed exactly if each was at once
given the time limit. -/
theorem session_leakFree_iff (e : Executor) (statements : List Json) :
    let start := Server.answering connects replies fetches closeErrors
    let final := (e.session statements ⟨start, none⟩).server
    Server.LeakFree start final ↔ e.Prepares final.log := by
  intro start final
  have haccounted : Execution.Accounted start e
      (statements.foldl (fun x statement => after (e.execute statement) x) ⟨start, none⟩) :=
    List.foldlRecOn statements _ (.inl (tidy_answering connects replies fetches closeErrors e))
      fun x hx statement _ => hx.execute statement
  rcases haccounted with htidy | hleaky
  · have hreleased := Execution.tidy_release htidy
    exact ⟨fun _ => hreleased.prepared, fun _ =>
      ⟨hreleased.followed.moments, Execution.not_isOpen_release htidy⟩⟩
  · have hreleased := hleaky.spares (Execution.spares_release _)
    obtain ⟨c, hopen, -⟩ := hreleased.lost
    exact ⟨fun hfree => absurd hopen (hfree.2 c), fun hprepared =>
      absurd ((List.append_nil _).symm ▸ hprepared) (hreleased.unprepared [])⟩

/-- The first connection is never closed if its limit is refused. -/
theorem session_not_leakFree :
    let start := Server.answering [] [.error ⟨"OperationalError", true⟩] [] fun _ => none
    let e : Executor := ⟨.text "db", .int 1000⟩
    ¬ Server.LeakFree start (e.session [.text "select 1"] ⟨start, none⟩).server := by
  intro start e hfree
  exact hfree.2 0 (by decide)

end Executor

end ProbeForge.Database
