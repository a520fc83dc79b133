import ProbeForge.Database.Introspection
import ProbeForge.Proofs.Database.Connections
import ProbeForge.Proofs.Universe.Additions

/-!
# What an introspection returns

The queries of an introspection are answered from the queues of the server in the order in which
they are sent, and sequences take nothing from the queues. So the object of each row can be told from
the server at the start, and the universe holds the objects of the longest run of rows, from the
first, that have one whose key is free. Afterwards the connection, if there was one, is closed.
-/

namespace ProbeForge.Database

/-! ### Rows and their objects -/

namespace Server

/-- Whether the statement after `n` others will succeed. -/
def accepts (s : Server) (n : Nat) : Bool :=
  match s.replies.getD n .ok with
  | .error _ => false
  | .ok | .drop => true

/-- The rows of the query after `n` others; nothing if the statement or the fetch fails. -/
def answer? (s : Server) (n : Nat) : Option (List (List Json)) :=
  if s.accepts n then
    match s.fetches.getD n (.rows fillerRows) with
    | .rows rows => some rows
    | .error _ => none
  else none

/-- The columns of a relation that would be asked for after `n` other queries. A sequence has none,
and none are asked for. -/
def columnsOf? (s : Server) (n : Nat) (r : Relation) : Option (List Json) :=
  if r.isSequence then some [] else (s.answer? n).bind columnNames?

/-- The object of a row; nothing if the row is malformed, the kind unknown or the query for the
columns, which is the one after `n` others, fails. -/
def objectOf? (s : Server) (n : Nat) (row : List Json) : Option SourceObject := do
  let r ← Relation.ofRow? row
  let columns ← s.columnsOf? n r
  let kind ← relationKind? r.kind
  return ⟨r.name, kind, r.schema, columns⟩

end Server

/-- The relations of some rows that have columns to ask for. -/
def columned (rows : List (List Json)) : List Relation :=
  (rows.filterMap Relation.ofRow?).filter (!·.isSequence)

/-- The object of the row at a place: the queries before its own are that for the relations and
those for the columns of the relations before it. -/
def Server.objectAt? (s : Server) (rows : List (List Json)) (i : Nat) : Option SourceObject :=
  rows[i]?.bind (s.objectOf? ((columned (rows.take i)).length + 1))

/-- The queries for the columns of some relations, as the log has them. -/
def columnQueries (c : Connection) (s : Server) (relations : List Relation) : List Event :=
  relations.mapIdx fun i r => .execute c columnQuery (some [r.oid]) (s.accepts (i + 1))

/-- The objects of the first rows, each of which found its key free. -/
def GoodPrefix (s : Server) (rows : List (List Json)) (objects : List SourceObject) : Prop :=
  ∀ (i : Nat) (h : i < objects.length),
    s.objectAt? rows i = some objects[i] ∧ Universe.Free (objects.take i) objects[i]

/-- The next row has no object or its key is taken. -/
structure LongestPrefix (s : Server) (rows : List (List Json)) (objects : List SourceObject) :
    Prop where
  good : GoodPrefix s rows objects
  ended : ∀ o, s.objectAt? rows objects.length = some o → ¬ Universe.Free objects o

/-! ### Queries -/

variable {start s s' : Server} {c : Connection} {n m : Nat} {events : List Event}

/-- The server has what is left of the queues after `n` queries, each of them answered. -/
structure Queued (start : Server) (n : Nat) (s : Server) : Prop where
  replies : s.replies = start.replies.drop n
  fetches : s.fetches = start.fetches.drop n

/-- Some statements were sent; if they were answered, there were `m` in all. -/
structure Sends (start : Server) (m : Nat) (events : List Event) (s : Server) (answered : Bool)
    (s' : Server) : Prop where
  log : s'.log = s.log ++ events
  closing : s'.closeErrors = s.closeErrors
  queued : answered = true → Queued start m s'

theorem head?_getD_drop {α : Type} (l : List α) (n : Nat) (absent : α) :
    (l.drop n).head?.getD absent = l.getD n absent := by
  rw [List.head?_drop, List.getD_eq_getElem?_getD]

theorem Queued.query? (h : Queued start n s) (c : Connection) (sql : String)
    (arguments : List Json) :
    (query? c sql arguments s).1 = start.answer? n ∧
      Sends start (n + 1) [.execute c sql (some arguments) (start.accepts n)] s
        (start.answer? n).isSome (query? c sql arguments s).2 := by
  have hreply : s.replies.head?.getD .ok = start.replies.getD n .ok := by
    rw [h.replies, head?_getD_drop]
  have hfetch : s.fetches.head?.getD (.rows Server.fillerRows) =
      start.fetches.getD n (.rows Server.fillerRows) := by rw [h.fetches, head?_getD_drop]
  have hqueued : Queued start (n + 1)
      { s with replies := s.replies.tail, fetches := s.fetches.tail } :=
    ⟨by rw [h.replies, List.tail_drop], by rw [h.fetches, List.tail_drop]⟩
  unfold Database.query? Server.execute Server.fetch Server.answer? Server.accepts
  rw [hreply]
  cases start.replies.getD n .ok with
  | error => exact ⟨rfl, rfl, rfl, nofun⟩
  | ok | drop =>
    dsimp only [Server.note]
    rw [hfetch]
    cases start.fetches.getD n (.rows Server.fillerRows) with
    | rows => exact ⟨rfl, rfl, rfl, fun _ => ⟨hqueued.replies, hqueued.fetches⟩⟩
    | error => exact ⟨rfl, rfl, rfl, nofun⟩

/-! ### Rows -/

variable {r : Relation} {row : List Json} {rows : List (List Json)} {u u' : Universe}
  {log : List Event}

theorem columned_singleton (h : Relation.ofRow? row = some r) :
    columned [row] = [r].filter (!·.isSequence) := by simp [columned, h]

theorem columned_malformed (h : Relation.ofRow? row = none) : columned [row] = [] := by
  simp [columned, h]

theorem columned_append (rows more : List (List Json)) :
    columned (rows ++ more) = columned rows ++ columned more := by simp [columned]

/-- The query for the columns of a row, if it has any to ask for, comes after `n` others. -/
def columnQuery? (c : Connection) (start : Server) (n : Nat) (row : List Json) : List Event :=
  (columned [row]).map fun r => .execute c columnQuery (some [r.oid]) (start.accepts n)

theorem columnQueries_concat (c : Connection) (start : Server) (rows : List (List Json))
    (row : List Json) :
    columnQueries c start (columned (rows ++ [row])) =
      columnQueries c start (columned rows) ++
        columnQuery? c start ((columned rows).length + 1) row := by
  rw [columned_append, columnQuery?]
  cases hrow : Relation.ofRow? row with
  | none =>
    rw [columned_malformed hrow, List.append_nil, List.map_nil, List.append_nil]
  | some r =>
    rw [columned_singleton hrow, List.filter_singleton]
    cases r.isSequence with
    | true =>
      -- a sequence adds no relation with columns and no query
      exact (congrArg _ (List.append_nil _)).trans (List.append_nil _).symm
    | false => exact List.mapIdx_concat

theorem Queued.columns? (h : Queued start n s) (c : Connection) (r : Relation) :
    (columns? c r s).1 = start.columnsOf? n r ∧
      Sends start (n + ([r].filter (!·.isSequence)).length)
        (([r].filter (!·.isSequence)).map fun r =>
          .execute c columnQuery (some [r.oid]) (start.accepts n))
        s (start.columnsOf? n r).isSome (columns? c r s).2 := by
  unfold Database.columns? Server.columnsOf?
  rw [List.filter_singleton]
  cases r.isSequence with
  | true => exact ⟨rfl, (List.append_nil _).symm, rfl, fun _ => h⟩
  | false =>
    obtain ⟨hanswer, hsends⟩ := h.query? c columnQuery [r.oid]
    refine ⟨congrArg (·.bind columnNames?) hanswer, hsends.log, hsends.closing,
      fun hsome => hsends.queued ?_⟩
    cases hn : start.answer? n with
    | none =>
      rw [hn] at hsome
      cases hsome
    | some rows => rfl

/-- A row is taken over if it has an object that the universe does not refuse. -/
theorem Queued.adopt? (h : Queued start n s) (c : Connection) (u : Universe) (row : List Json) :
    (adopt? c u row s).1 = ((start.objectOf? n row).bind fun o =>
        if (u.add o).1 = none then some (u.add o).2 else none) ∧
      Sends start (n + (columned [row]).length) (columnQuery? c start n row) s
        (adopt? c u row s).1.isSome (adopt? c u row s).2 := by
  unfold Database.adopt? Server.objectOf? columnQuery?
  cases hrow : Relation.ofRow? row with
  | none =>
    rw [columned_malformed hrow]
    exact ⟨rfl, (List.append_nil _).symm, rfl, nofun⟩
  | some r =>
    obtain ⟨hcolumns, hsends⟩ := h.columns? c r
    rw [columned_singleton hrow]
    dsimp only [Option.bind_eq_bind, Option.bind_some]
    generalize Database.columns? c r s = result at hcolumns hsends
    obtain ⟨columns, s'⟩ := result
    rw [← hcolumns] at hsends ⊢
    cases columns with
    | none => exact ⟨rfl, hsends⟩
    | some columns =>
      dsimp only [Option.bind_some]
      -- the columns were asked for before the kind is looked at, so the query is sent either way
      cases relationKind? r.kind with
      | none => exact ⟨rfl, hsends.log, hsends.closing, nofun⟩
      | some kind =>
        dsimp only [Option.bind_some, Option.pure_def]
        generalize u.add ⟨r.name, kind, r.schema, columns⟩ = added
        obtain ⟨_ | fault, u'⟩ := added
        · exact ⟨rfl, hsends⟩
        · exact ⟨rfl, hsends.log, hsends.closing, nofun⟩

/-! ### Runs over the rows -/

variable {objects : List SourceObject} {o : SourceObject}

theorem relationKind?_isPhysical {value : Json} {kind : SourceKind}
    (h : relationKind? value = some kind) : kind.isPhysical = true := by
  unfold relationKind? at h
  split at h <;> cases h <;> rfl

theorem objectAt?_isPhysical {i : Nat} (h : start.objectAt? rows i = some o) :
    o.kind.isPhysical = true := by
  obtain ⟨row, -, h⟩ := Option.bind_eq_some_iff.mp h
  obtain ⟨r, -, h⟩ := Option.bind_eq_some_iff.mp h
  obtain ⟨columns, -, h⟩ := Option.bind_eq_some_iff.mp h
  obtain ⟨kind, hkind, h⟩ := Option.bind_eq_some_iff.mp h
  cases h
  exact relationKind?_isPhysical hkind

theorem goodPrefix_nil (s : Server) (rows : List (List Json)) : GoodPrefix s rows [] :=
  fun i h => absurd h (Nat.not_lt_zero i)

theorem GoodPrefix.concat (h : GoodPrefix start rows objects)
    (hobject : start.objectAt? rows objects.length = some o) (hfree : Universe.Free objects o) :
    GoodPrefix start rows (objects ++ [o]) := by
  intro i hi
  rcases Nat.lt_succ_iff_lt_or_eq.mp (List.length_append ▸ hi) with hlt | rfl
  · rw [List.getElem_append_left hlt, List.take_append_of_le_length (Nat.le_of_lt hlt)]
    exact h i hlt
  · rw [List.getElem_concat_length rfl, List.take_left]
    exact ⟨hobject, hfree⟩

/-- The first rows were taken over, and the next query is the one after those that they needed. -/
structure Adopting (start : Server) (c : Connection) (log : List Event) (rows : List (List Json))
    (objects : List SourceObject) (u : Universe) (s : Server) : Prop where
  partitioned : u.Partitioned
  values : u.objects.values = objects
  good : GoodPrefix start rows objects
  queued : Queued start ((columned (rows.take objects.length)).length + 1) s
  log : s.log = log ++ columnQueries c start (columned (rows.take objects.length))
  closing : s.closeErrors = start.closeErrors

/-- Nothing more was taken over. The row that ended the run was asked for its columns as well. -/
structure Adopted (start : Server) (c : Connection) (log : List Event) (rows : List (List Json))
    (u : Universe) (s : Server) : Prop where
  partitioned : u.Partitioned
  longest : LongestPrefix start rows u.objects.values
  log : s.log = log ++ columnQueries c start (columned (rows.take (u.size + 1)))
  closing : s.closeErrors = start.closeErrors

theorem take_next (hrow : rows[n]? = some row) : rows.take (n + 1) = rows.take n ++ [row] := by
  rw [List.take_add_one, hrow]
  rfl

/-- The next row is taken over exactly if it has an object that the universe does not refuse. -/
theorem Adopting.asks (h : Adopting start c log rows objects u s)
    (hrow : rows[objects.length]? = some row) :
    (adopt? c u row s).1 = ((start.objectAt? rows objects.length).bind fun o =>
        if (u.add o).1 = none then some (u.add o).2 else none) ∧
      (adopt? c u row s).2.log =
        log ++ columnQueries c start (columned (rows.take (objects.length + 1))) ∧
      (adopt? c u row s).2.closeErrors = start.closeErrors ∧
      ((adopt? c u row s).1.isSome = true → Queued start
        ((columned (rows.take (objects.length + 1))).length + 1) (adopt? c u row s).2) := by
  obtain ⟨hresult, hsends⟩ := h.queued.adopt? c u row
  rw [take_next hrow]
  refine ⟨?_, ?_, hsends.closing.trans h.closing, ?_⟩
  · rw [hresult, Server.objectAt?, hrow, Option.bind_some]
  · rw [hsends.log, h.log, columnQueries_concat, List.append_assoc]
  · rw [columned_append, List.length_append, Nat.add_right_comm]
    exact hsends.queued

theorem Adopting.takes (h : Adopting start c log rows objects u s)
    (hrow : rows[objects.length]? = some row)
    (hobject : start.objectAt? rows objects.length = some o) (hfree : Universe.Free objects o) :
    (adopt? c u row s).1 = some (u.add o).2 ∧
      Adopting start c log rows (objects ++ [o]) (u.add o).2 (adopt? c u row s).2 := by
  obtain ⟨hresult, hlog, hclosing, hqueued⟩ := h.asks hrow
  obtain ⟨hadded, hvalues⟩ := h.partitioned.add_physical (objectAt?_isPhysical hobject)
  rw [h.values] at hadded hvalues
  have hnone := hadded.mpr hfree
  rw [hobject, Option.bind_some, if_pos hnone] at hresult
  have hlength : (objects ++ [o]).length = objects.length + 1 := List.length_append
  refine ⟨hresult, h.partitioned.add o, hvalues hnone, h.good.concat hobject hfree, ?_, ?_, hclosing⟩
  · rw [hlength]
    exact hqueued (by rw [hresult, Option.isSome_some])
  · rw [hlength]
    exact hlog

theorem Adopting.stops (h : Adopting start c log rows objects u s)
    (hrow : rows[objects.length]? = some row)
    (hended : ∀ o, start.objectAt? rows objects.length = some o → ¬ Universe.Free objects o) :
    (adopt? c u row s).1 = none ∧ Adopted start c log rows u (adopt? c u row s).2 := by
  obtain ⟨hresult, hlog, hclosing, -⟩ := h.asks hrow
  refine ⟨?_, h.partitioned, h.values ▸ ⟨h.good, hended⟩, ?_, hclosing⟩
  · rw [hresult, Option.bind_eq_none_iff]
    intro o ho
    obtain ⟨hadded, -⟩ := h.partitioned.add_physical (objectAt?_isPhysical ho)
    rw [h.values] at hadded
    exact if_neg (mt hadded.mp (hended o ho))
  · rw [← Universe.length_values, h.values]
    exact hlog

theorem Adopting.adoptAll {rest : List (List Json)} (h : Adopting start c log rows objects u s)
    (hrest : rest = rows.drop objects.length) :
    Adopted start c log rows (adoptAll c rest u s).1 (adoptAll c rest u s).2 := by
  -- the rows that are left are those after the objects that were taken over
  induction rest generalizing objects u s with
  | nil =>
    have hlength : rows.length ≤ objects.length := List.drop_eq_nil_iff.mp hrest.symm
    have hout : start.objectAt? rows objects.length = none := by
      rw [Server.objectAt?, List.getElem?_eq_none hlength, Option.bind_none]
    refine ⟨h.partitioned, h.values ▸ ⟨h.good, fun o ho => nomatch hout.symm.trans ho⟩, ?_,
      h.closing⟩
    rw [← Universe.length_values, Database.adoptAll, h.values, h.log, List.take_of_length_le hlength,
      List.take_of_length_le (Nat.le_succ_of_le hlength)]
  | cons row rest ih =>
    have hrow : rows[objects.length]? = some row := by
      rw [← List.head?_drop, ← hrest, List.head?_cons]
    rw [Database.adoptAll]
    by_cases htaken : ∃ o, start.objectAt? rows objects.length = some o ∧ Universe.Free objects o
    · obtain ⟨o, hobject, hfree⟩ := htaken
      obtain ⟨hresult, hnext⟩ := h.takes hrow hobject hfree
      generalize Database.adopt? c u row s = result at hresult hnext
      obtain ⟨adopted, s'⟩ := result
      cases hresult
      refine ih hnext ?_
      rw [List.length_append, List.length_singleton, ← List.tail_drop, ← hrest, List.tail_cons]
    · obtain ⟨hresult, hstopped⟩ := h.stops hrow fun o ho hfree => htaken ⟨o, ho, hfree⟩
      generalize Database.adopt? c u row s = result at hresult hstopped
      obtain ⟨adopted, s'⟩ := result
      cases hresult
      exact hstopped

/-! ### Introspections -/

/-- If the relations cannot be listed there are none. -/
theorem Queued.adoptAll (h : Queued start 0 s) (hclosing : s.closeErrors = start.closeErrors)
    (c : Connection) (arguments : List Json) :
    let listed := Database.query? c relationQuery arguments s
    let adopted := Database.adoptAll c (listed.1.getD []) .empty listed.2
    Adopted start c (s.log ++ [.execute c relationQuery (some arguments) (start.accepts 0)])
      ((start.answer? 0).getD []) adopted.1 adopted.2 := by
  intro listed adopted
  obtain ⟨hanswer, hsends⟩ := h.query? c relationQuery arguments
  have hclosed : listed.2.closeErrors = start.closeErrors := hsends.closing.trans hclosing
  have hlog : listed.2.log =
      s.log ++ [.execute c relationQuery (some arguments) (start.accepts 0)] ++ [] :=
    hsends.log.trans (List.append_nil _).symm
  have hlisted : adopted = Database.adoptAll c ((start.answer? 0).getD []) .empty listed.2 :=
    congrArg (fun rows => Database.adoptAll c (rows.getD []) .empty listed.2) hanswer
  rw [hlisted]
  cases hrows : start.answer? 0 with
  | none =>
    exact ⟨Universe.partitioned_empty, ⟨goodPrefix_nil start [], nofun⟩, hlog, hclosed⟩
  | some rows =>
    have hstart : Adopting start c
        (s.log ++ [.execute c relationQuery (some arguments) (start.accepts 0)]) rows [] .empty
        listed.2 :=
      ⟨Universe.partitioned_empty, rfl, goodPrefix_nil start rows,
        hsends.queued (by rw [hrows, Option.isSome_some]), hlog, hclosed⟩
    exact hstart.adoptAll rfl

theorem introspect_connected (dsn : Json) (schemas : List Json)
    (hconnect : (s.connect dsn).1 = .ok c) :
    ∃ u before, introspect dsn schemas s = (u, (before.close c).2) ∧
      Adopted s c (s.log ++ [.connect dsn (some c),
          .execute c relationQuery (some [.list schemas]) (s.accepts 0)])
        ((s.answer? 0).getD []) u before := by
  unfold introspect
  have hconnects := Server.connect_connects dsn s
  generalize s.connect dsn = result at hconnects hconnect
  cases hconnects with
  | refused failure => cases hconnect
  | made =>
    cases hconnect
    dsimp only
    generalize hconnected : ({ s with connects := _, made := _, log := _ } : Server) = connected
    have hqueued : Queued s 0 connected := hconnected ▸ ⟨rfl, rfl⟩
    have hadopted := hqueued.adoptAll (hconnected ▸ rfl) s.made [.list schemas]
    refine ⟨_, _, rfl, ?_⟩
    rwa [← hconnected, List.append_assoc, hconnected] at hadopted

theorem introspect_refused {failure : ServerError} (dsn : Json) (schemas : List Json)
    (hconnect : (s.connect dsn).1 = .error failure) :
    ∃ final, introspect dsn schemas s = (.empty, final) ∧
      final.log = s.log ++ [.connect dsn none] := by
  unfold introspect
  have hconnects := Server.connect_connects dsn s
  generalize s.connect dsn = result at hconnects hconnect
  cases hconnects with
  | refused failure => exact ⟨_, rfl, rfl⟩
  | made => cases hconnect

/-- Whatever the server answers, the universe holds the objects of the longest good prefix of the
relations, and a connection that was made is closed last. -/
theorem introspect_longestPrefix (dsn : Json) (schemas : List Json) (s : Server)
    (hclose : ∀ c, s.closeErrors c = none) :
    ∃ u final, introspect dsn schemas s = (u, final) ∧ u.Partitioned ∧
      match (s.connect dsn).1 with
      | .error _ => u.objects.values = [] ∧ final.log = s.log ++ [.connect dsn none]
      | .ok c =>
        let rows := (s.answer? 0).getD []
        LongestPrefix s rows u.objects.values ∧
          final.log = s.log ++ [.connect dsn (some c),
              .execute c relationQuery (some [.list schemas]) (s.accepts 0)] ++
            columnQueries c s (columned (rows.take (u.size + 1))) ++ [.close c] ∧
          ∃ before : Server, before.close c = (.ok (), final) := by
  cases hconnect : (s.connect dsn).1 with
  | error failure =>
    obtain ⟨final, hrun, hlog⟩ := introspect_refused dsn schemas hconnect
    exact ⟨.empty, final, hrun, Universe.partitioned_empty, rfl, hlog⟩
  | ok c =>
    obtain ⟨u, before, hrun, hadopted⟩ := introspect_connected dsn schemas hconnect
    refine ⟨u, _, hrun, hadopted.partitioned, hadopted.longest, ?_, before, ?_⟩
    · rw [Server.close_eq, hadopted.log]
    · have hnone : before.closeErrors c = none := by rw [hadopted.closing, hclose]
      unfold Server.close
      simp only [Server.note, hnone]

/-- Two relations of one name: the second is asked for its columns and ends the introspection. -/
def twiceNamed : Server :=
  .answering [] []
    [.rows [[.int 1, .text "app", .text "a", .text "r"], [.int 2, .text "app", .text "q", .text "S"],
      [.int 3, .text "app", .text "a", .text "v"], [.int 4, .text "app", .text "b", .text "v"]],
      .rows [[.text "x"]], .rows [[.text "y"]]]
    fun _ => none

theorem introspect_longestPrefix_twiceNamed :
    (∀ c, twiceNamed.closeErrors c = none) ∧
      ∃ u final, introspect (.text "db") [.text "app"] twiceNamed = (u, final) ∧
        u.objects.values = [.named "a" .table "app" ["x"], .named "q" .sequence "app" []] ∧
        LongestPrefix twiceNamed ((twiceNamed.answer? 0).getD []) u.objects.values := by
  obtain ⟨u, final, hrun, -, hlongest, -⟩ :=
    introspect_longestPrefix (.text "db") [.text "app"] twiceNamed fun _ => rfl
  have hvalues : (introspect (.text "db") [.text "app"] twiceNamed).1.objects.values =
      [.named "a" .table "app" ["x"], .named "q" .sequence "app" []] := by rfl
  rw [hrun] at hvalues
  exact ⟨fun _ => rfl, u, final, hrun, hvalues, hlongest⟩

end ProbeForge.Database
