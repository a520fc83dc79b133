import ProbeForge.Proofs.Database.Introspection
import ProbeForge.Proofs.Numbered

/-!
# Objects that clash

An object is known by its schema and name, written in one with a dot between them. Two such writings
may agree though the schemas or the names do not, for a dot is allowed in both, and a missing schema
is not written. Then the second object is refused as if it was there already, and an introspection
ends. If no two writings agree, nothing is refused but an object that is there.
-/

namespace ProbeForge

/-! ### Writings -/

/-- The schema, if there is one, and the name of an object. -/
def SourceObject.pair (o : SourceObject) : Option String × String := (o.schemaText?, o.nameText)

/-- A schema and a name in one; an empty schema is left out like one that is missing. -/
def qualified : Option String × String → String
  | (schema?, name) =>
    if schema?.getD "" = "" then name else schema?.getD "" ++ "." ++ name

/-- Different pairs that are written in the same way: a dot may end the schema, or a schema that
contains it, or stand in a name without schema. -/
inductive Ambiguous : Option String × String → Option String × String → Prop where
  | dotted {schema : String} (filled : schema ≠ "") (middle name : String) :
      Ambiguous (some schema, middle ++ "." ++ name) (some (schema ++ "." ++ middle), name)
  | bare {schema : String} (filled : schema ≠ "") (name : String) {absent : Option String}
      (unwritten : absent.getD "" = "") :
      Ambiguous (some schema, name) (absent, schema ++ "." ++ name)
  | empty (name : String) : Ambiguous (some "", name) (none, name)

def Clash (p q : Option String × String) : Prop := Ambiguous p q ∨ Ambiguous q p

variable {p q : Option String × String}

theorem length_dotted (s t : String) : (s ++ "." ++ t).length = s.length + t.length + 1 := by
  simp only [String.length_append]
  have : ".".length = 1 := rfl
  omega

theorem dotted_ne (s t : String) : s ++ "." ++ t ≠ "" := fun heq => by
  have := congrArg String.length heq
  rw [length_dotted] at this
  cases this

theorem Ambiguous.qualified_eq (h : Ambiguous p q) : qualified p = qualified q := by
  cases h with
  | dotted filled middle name =>
    simp only [qualified, Option.getD_some, if_neg filled, if_neg (dotted_ne _ _)]
    simp only [String.append_assoc]
  | bare filled name unwritten =>
    simp only [qualified, Option.getD_some, if_neg filled, if_pos unwritten]
  | empty name => simp [qualified]

theorem Ambiguous.ne (h : Ambiguous p q) : p ≠ q := by
  intro heq
  -- one of the names is longer
  have hlength := congrArg (fun p => p.2.length) heq
  cases h with
  | dotted | bare =>
    dsimp only at hlength
    rw [length_dotted] at hlength
    omega
  | empty => cases heq

theorem Clash.qualified_eq (h : Clash p q) : qualified p = qualified q :=
  h.elim Ambiguous.qualified_eq fun h => h.qualified_eq.symm

theorem Clash.ne (h : Clash p q) : p ≠ q := h.elim Ambiguous.ne fun h => h.ne.symm

/-- The dot of one writing is that of the other, or one schema goes on where the other ends. -/
theorem dotted_cases {s n s' n' : String} (h : s ++ "." ++ n = s' ++ "." ++ n') :
    s = s' ∧ n = n' ∨ (∃ middle, s' = s ++ "." ++ middle ∧ n = middle ++ "." ++ n') ∨
      ∃ middle, s = s' ++ "." ++ middle ∧ n' = middle ++ "." ++ n := by
  have htoList (s n : String) : (s ++ "." ++ n).toList = s.toList ++ '.' :: n.toList := by simp
  have hofList {s : String} {l : List Char} {n : String} (h : s.toList = l ++ '.' :: n.toList) :
      s = String.ofList l ++ "." ++ n := by
    rw [← String.toList_inj, htoList, String.toList_ofList, h]
  have hchars := congrArg String.toList h
  rw [htoList, htoList] at hchars
  rcases append_separator_cases hchars with ⟨hs, hn⟩ | ⟨middle, hs, hn⟩ | ⟨middle, hs, hn⟩
  · exact .inl ⟨String.toList_inj.mp hs, String.toList_inj.mp hn⟩
  · refine .inr (.inl ⟨String.ofList middle, ?_, hofList hn⟩)
    rw [← String.toList_inj, htoList, String.toList_ofList, hs]
  · refine .inr (.inr ⟨String.ofList middle, ?_, hofList hn⟩)
    rw [← String.toList_inj, htoList, String.toList_ofList, hs]

theorem clash_unwritten {s s' : Option String} (hs : s.getD "" = "") (hs' : s'.getD "" = "")
    (name : String) : (s, name) = (s', name) ∨ Clash (s, name) (s', name) := by
  cases s with
  | none =>
    cases s' with
    | none => exact .inl rfl
    | some s' =>
      cases hs'
      exact .inr (.inr (.empty name))
  | some s =>
    cases hs
    cases s' with
    | none => exact .inr (.inl (.empty name))
    | some s' =>
      cases hs'
      exact .inl rfl

/-- Two pairs are written in the same way exactly if they are the same or clash. -/
theorem qualified_eq_iff : qualified p = qualified q ↔ p = q ∨ Clash p q := by
  constructor
  · obtain ⟨s, n⟩ := p
    obtain ⟨s', n'⟩ := q
    intro h
    have hsome {s : Option String} (h : s.getD "" ≠ "") : ∃ t, s = some t ∧ t ≠ "" := by
      cases s with
      | none => exact absurd rfl h
      | some t => exact ⟨t, rfl, h⟩
    dsimp only [qualified] at h
    split at h
    case isTrue hs =>
      split at h
      case isTrue hs' =>
        subst h
        exact clash_unwritten hs hs' n
      case isFalse hs' =>
        obtain ⟨t', rfl, ht'⟩ := hsome hs'
        subst h
        exact .inr (.inr (.bare ht' n' hs))
    case isFalse hs =>
      obtain ⟨t, rfl, ht⟩ := hsome hs
      split at h
      case isTrue hs' =>
        subst h
        exact .inr (.inl (.bare ht n hs'))
      case isFalse hs' =>
        obtain ⟨t', rfl, ht'⟩ := hsome hs'
        -- both schemas are written, so the dots after them are the same or one schema is longer
        rcases dotted_cases h with ⟨hs, hn⟩ | ⟨middle, hs, hn⟩ | ⟨middle, hs, hn⟩
        · exact .inl (Prod.ext (congrArg some hs) hn)
        · cases hs
          cases hn
          exact .inr (.inl (.dotted ht middle n'))
        · cases hs
          cases hn
          exact .inr (.inr (.dotted ht' middle n))
  · rintro (rfl | h)
    · rfl
    · exact h.qualified_eq

/-! ### Additions -/

/-- The name is a text, and so is the schema unless it is missing. -/
def SourceObject.Spelled (o : SourceObject) : Prop :=
  ∃ (schema : Option String) (name : String), o.schema = schema.elim .null .text ∧ o.name = .text name

theorem SourceObject.Spelled.qualifiedName_eq {o : SourceObject} (h : o.Spelled) :
    o.qualifiedName = .text (qualified o.pair) := by
  obtain ⟨schema, name, hschema, hname⟩ := h
  unfold qualifiedName pair schemaText? nameText
  rw [hschema, hname]
  cases schema with
  | none => rfl
  | some schema =>
    by_cases hfilled : schema = ""
    · subst hfilled
      rfl
    · have hwritten : (Json.text schema).isFilled = true := by simpa [Json.isFilled] using hfilled
      have hqualified : qualified (some schema, name) = schema ++ "." ++ name := if_neg hfilled
      exact (if_pos hwritten).trans (congrArg Json.text hqualified.symm)

theorem SourceObject.Spelled.key_eq {o : SourceObject} (h : o.Spelled) :
    o.key = .ok (.text (qualified o.pair)) := congrArg Json.toKey h.qualifiedName_eq

namespace Universe

variable {u : Universe} {o : SourceObject}

theorem Partitioned.contains_qualified (h : u.Partitioned)
    (hspelled : ∀ o ∈ u.objects.values, o.Spelled) :
    u.contains (.text (qualified p)) = true ↔
      ∃ o ∈ u.objects.values, o.pair = p ∨ Clash o.pair p := by
  rw [h.contains_iff]
  refine exists_congr fun o => and_congr_right fun ho => ?_
  rw [(hspelled o ho).key_eq, ← qualified_eq_iff]
  simp

/-- An object is refused as one that is there already if it is, or clashes with one that is. -/
theorem Partitioned.refuses_iff (h : u.Partitioned) (hspelled : ∀ o ∈ u.objects.values, o.Spelled)
    (ho : o.Spelled) :
    (u.add o).1 = some (.configuration (.objectTwice (qualified o.pair))) ↔
      ∃ o' ∈ u.objects.values, o'.pair = o.pair ∨ Clash o'.pair o.pair := by
  rw [← h.contains_qualified hspelled]
  have hkey := ho.key_eq
  have hadds := adds_add u o
  generalize u.add o = r at hadds
  cases hadds with
  | unkeyed hkeyless => cases hkey.symm.trans hkeyless
  | twice hkeyed htaken =>
    cases hkey.symm.trans hkeyed
    rw [ho.qualifiedName_eq]
    exact iff_of_true rfl htaken
  | added _ hstores | unlisted _ hstores =>
    cases hkey.symm.trans hstores.keyed
    exact iff_of_false nofun (Bool.eq_false_iff.mp hstores.free)

/-- Refusals are right exactly if no object that is there clashes with the one that is added. -/
theorem Partitioned.refuses_present_iff (h : u.Partitioned)
    (hspelled : ∀ o ∈ u.objects.values, o.Spelled) (ho : o.Spelled) :
    ((u.add o).1 = some (.configuration (.objectTwice (qualified o.pair))) ↔
        ∃ o' ∈ u.objects.values, o'.pair = o.pair) ↔
      ∀ o' ∈ u.objects.values, ¬ Clash o'.pair o.pair := by
  rw [h.refuses_iff hspelled ho]
  constructor
  · intro hright o' ho' hclash
    obtain ⟨o'', ho'', hpair⟩ := hright.mp ⟨o', ho', .inr hclash⟩
    -- both have the key of the object, so they are one
    have hkey : o'.key = o''.key := by
      rw [(hspelled o' ho').key_eq, (hspelled o'' ho'').key_eq, hpair, hclash.qualified_eq]
    cases h.eq_of_key ho' ho'' hkey
    exact hclash.ne hpair
  · intro hclear
    exact exists_congr fun o' => and_congr_right fun ho' => or_iff_left (hclear o' ho')

theorem free_spelled_iff {others : List SourceObject} (hspelled : ∀ o' ∈ others, o'.Spelled)
    (ho : o.Spelled) :
    Free others o ↔ ∀ o' ∈ others, o'.pair ≠ o.pair ∧ ¬ Clash o'.pair o.pair := by
  have hsame (o' : SourceObject) (ho' : o' ∈ others) :
      o'.key ≠ o.key ↔ o'.pair ≠ o.pair ∧ ¬ Clash o'.pair o.pair := by
    rw [(hspelled o' ho').key_eq, ho.key_eq, ← not_or, ← qualified_eq_iff]
    simp
  rw [Free, ← forall₂_congr hsame, ho.key_eq]
  constructor
  · rintro ⟨key, hkey, hfree⟩
    rwa [hkey]
  · exact fun hfree => ⟨_, rfl, hfree⟩

theorem spelled_add (hspelled : ∀ o ∈ u.objects.values, o.Spelled) (ho : o.Spelled) :
    ∀ o' ∈ (u.add o).2.objects.values, o'.Spelled := by
  have hadds := adds_add u o
  generalize u.add o = r at hadds
  cases hadds with
  | unkeyed | twice => exact hspelled
  | added _ hstores | unlisted _ hstores =>
    intro o' ho'
    rcases List.mem_append.mp (hstores.values ▸ ho') with ho' | ho'
    · exact hspelled o' ho'
    · exact List.mem_singleton.mp ho' ▸ ho

theorem spelled_filledBy {objects : List SourceObject} (h : ∀ o ∈ objects, o.Spelled) :
    ∀ o ∈ (filledBy objects).objects.values, o.Spelled :=
  List.foldlRecOn objects _ (motive := fun u : Universe => ∀ o ∈ u.objects.values, o.Spelled)
    (fun _ ho => nomatch ho) fun _ hu o ho => spelled_add hu (h o ho)

end Universe

/-! ### Introspections -/

namespace Database

open Universe (Free)

variable {s : Server} {n : Nat} {row : List Json} {rows : List (List Json)} {schema name : String}

/-- No request to the server fails, and no row that it gives is empty. -/
structure Server.Errorless (s : Server) : Prop where
  connects : ∀ reply ∈ s.connects, ∀ e, reply ≠ .error e
  replies : ∀ reply ∈ s.replies, ∀ e, reply ≠ .error e
  fetches : ∀ fetch ∈ s.fetches, ∃ rows, fetch = .rows rows ∧ ∀ row ∈ rows, row ≠ []
  closing : ∀ c, s.closeErrors c = none

/-- The row of a relation with its schema and name. -/
inductive Lists : List Json → Option String × String → Prop where
  | relation (oid : Json) (schema name : String) {kind : Json}
      (known : (relationKind? kind).isSome = true) :
      Lists [oid, .text schema, .text name, kind] (some schema, name)

theorem forall_getD {α : Type} {P : α → Prop} {l : List α} (absent : α) (h : ∀ a ∈ l, P a)
    (habsent : P absent) (n : Nat) : P (l.getD n absent) := by
  rw [List.getD_eq_getElem?_getD]
  cases hn : l[n]? with
  | none => exact habsent
  | some a => exact h a (List.mem_of_getElem? hn)

theorem columnNames?_isSome (h : ∀ row ∈ rows, row ≠ []) : (columnNames? rows).isSome = true := by
  unfold columnNames?
  induction rows with
  | nil => rfl
  | cons row rows ih =>
    obtain ⟨hrow, hrows⟩ := List.forall_mem_cons.mp h
    obtain ⟨field, rest, rfl⟩ := List.exists_cons_of_ne_nil hrow
    obtain ⟨names, hnames⟩ := Option.isSome_iff_exists.mp (ih hrows)
    rw [List.mapM_cons, hnames]
    rfl

theorem Server.Errorless.connect (h : s.Errorless) {dsn : Json} :
    (s.connect dsn).1 = .ok s.made := by
  have hreply : ∀ e, s.connects.head?.getD .ok ≠ .error e := by
    cases hconnects : s.connects with
    | nil => exact fun _ he => nomatch he
    | cons reply rest => exact h.connects reply (hconnects ▸ List.mem_cons_self)
  unfold Server.connect
  dsimp only
  split
  case h_1 e he => exact absurd he (hreply e)
  all_goals rfl

theorem Server.Errorless.answer? (h : s.Errorless) (n : Nat) :
    ∃ rows, s.answer? n = some rows ∧ ∀ row ∈ rows, row ≠ [] := by
  have haccepts : s.accepts n = true := by
    have hreply := forall_getD .ok h.replies (fun _ he => nomatch he) n
    unfold accepts
    split
    case h_1 e he => exact absurd he (hreply e)
    all_goals rfl
  obtain ⟨rows, hrows, hfilled⟩ := forall_getD (.rows fillerRows) h.fetches
    ⟨fillerRows, rfl, by simp [fillerRows]⟩ n
  refine ⟨rows, ?_, hfilled⟩
  rw [Server.answer?, if_pos haccepts, hrows]

theorem Server.Errorless.columnsOf? (h : s.Errorless) (n : Nat) (r : Relation) :
    (s.columnsOf? n r).isSome = true := by
  unfold Server.columnsOf?
  split
  · rfl
  · obtain ⟨rows, hrows, hfilled⟩ := h.answer? n
    rw [hrows]
    exact columnNames?_isSome hfilled

/-- A relation that is listed has an object. -/
theorem Server.Errorless.objectOf? (h : s.Errorless) (n : Nat) (hlists : Lists row p) :
    ∃ o, s.objectOf? n row = some o ∧ o.Spelled ∧ o.pair = p := by
  obtain @⟨oid, schema, name, letter, hknown⟩ := hlists
  obtain ⟨kind, hkind⟩ := Option.isSome_iff_exists.mp hknown
  obtain ⟨columns, hcolumns⟩ := Option.isSome_iff_exists.mp
    (h.columnsOf? n ⟨oid, .text schema, .text name, letter⟩)
  refine ⟨⟨.text name, kind, .text schema, columns⟩, ?_, ⟨some schema, name, rfl, rfl⟩, rfl⟩
  simp only [Server.objectOf?, Relation.ofRow?, Option.bind_eq_bind, Option.bind_some, hcolumns,
    hkind, Option.pure_def]

variable {objects : List SourceObject} {pairs : List (Option String × String)}

theorem Server.Errorless.objectAt? (h : s.Errorless) (hlists : List.Forall₂ Lists rows pairs)
    {i : Nat} (hi : i < pairs.length) :
    ∃ o, s.objectAt? rows i = some o ∧ o.Spelled ∧ o.pair = pairs[i] := by
  have hi' : i < rows.length := hlists.length_eq ▸ hi
  unfold Server.objectAt?
  rw [List.getElem?_eq_getElem hi', Option.bind_some]
  exact h.objectOf? _ (hlists.get hi' hi)

theorem GoodPrefix.pair (h : GoodPrefix s rows objects) (hs : s.Errorless)
    (hlists : List.Forall₂ Lists rows pairs) {i : Nat} (hi : i < objects.length) :
    ∃ hi' : i < pairs.length, objects[i].Spelled ∧ objects[i].pair = pairs[i] := by
  have hfound := (h i hi).1
  have hi' : i < pairs.length := by
    rw [← hlists.length_eq]
    by_contra hout
    rw [Server.objectAt?, List.getElem?_eq_none (Nat.le_of_not_lt hout)] at hfound
    cases hfound
  obtain ⟨o, ho, hspelled, hpair⟩ := hs.objectAt? hlists hi'
  cases Option.some.inj (hfound.symm.trans ho)
  exact ⟨hi', hspelled, hpair⟩

theorem GoodPrefix.length_le (h : GoodPrefix s rows objects) (hs : s.Errorless)
    (hlists : List.Forall₂ Lists rows pairs) : objects.length ≤ pairs.length := by
  by_contra hlong
  obtain ⟨hi, -⟩ := h.pair hs hlists (Nat.lt_of_not_le hlong)
  exact Nat.lt_irrefl _ hi

/-- All relations are taken over exactly if no two of them clash. -/
theorem LongestPrefix.map_pair_iff (h : LongestPrefix s rows objects) (hs : s.Errorless)
    (hlists : List.Forall₂ Lists rows pairs) (hdistinct : pairs.Nodup) :
    objects.map (·.pair) = pairs ↔ pairs.Pairwise fun p q => ¬ Clash p q := by
  have hspelled : ∀ o ∈ objects, o.Spelled := by
    intro o ho
    obtain ⟨i, hi, rfl⟩ := List.getElem_of_mem ho
    exact (h.good.pair hs hlists hi).2.1
  constructor
  · rintro rfl
    refine List.pairwise_iff_getElem.mpr fun i j hi hj hij => ?_
    rw [List.length_map] at hi hj
    rw [List.getElem_map, List.getElem_map]
    have hfree := (Universe.free_spelled_iff
      (fun o ho => hspelled o (List.mem_of_mem_take ho)) (hspelled _ (List.getElem_mem hj))).mp
      (h.good j hj).2
    exact (hfree objects[i] (List.mem_take_iff_getElem.mpr ⟨i, by omega, rfl⟩)).2
  · intro hclear
    have hlength : objects.length = pairs.length := by
      by_contra hne
      -- the relation after the last object has an object of its own, whose key would be free
      have hlt : objects.length < pairs.length :=
        Nat.lt_of_le_of_ne (h.good.length_le hs hlists) hne
      obtain ⟨o, ho, hspelled', hpair⟩ := hs.objectAt? hlists hlt
      refine h.ended o ho ((Universe.free_spelled_iff hspelled hspelled').mpr fun o' ho' => ?_)
      obtain ⟨i, hi, rfl⟩ := List.getElem_of_mem ho'
      obtain ⟨hi', -, hpair'⟩ := h.good.pair hs hlists hi
      rw [hpair, hpair']
      exact ⟨fun heq => Nat.ne_of_lt hi (hdistinct.getElem_inj_iff.mp heq),
        List.pairwise_iff_getElem.mp hclear i _ hi' hlt hi⟩
    refine List.ext_getElem (by rw [List.length_map, hlength]) fun i hi hi' => ?_
    rw [List.getElem_map]
    exact (h.good.pair hs hlists _).2.2

/-- Objects are told apart exactly if no two of them clash: an addition to a universe that was
filled by additions is refused as made twice just if an object of that schema and name is there, and
an introspection without errors keeps all relations. -/
theorem told_apart_iff (added : List SourceObject) (o : SourceObject)
    (hspelled : ∀ o' ∈ o :: added, o'.Spelled) (dsn : Json) (schemas : List Json) (s : Server)
    (hs : s.Errorless) (pairs : List (Option String × String))
    (hlists : List.Forall₂ Lists ((s.answer? 0).getD []) pairs) (hdistinct : pairs.Nodup) :
    let u := Universe.filledBy added
    (((u.add o).1 = some (.configuration (.objectTwice (qualified o.pair))) ↔
        ∃ o' ∈ u.objects.values, o'.pair = o.pair) ↔
      ∀ o' ∈ u.objects.values, ¬ Clash o'.pair o.pair) ∧
    ((introspect dsn schemas s).1.objects.values.map (·.pair) = pairs ↔
      pairs.Pairwise fun p q => ¬ Clash p q) := by
  obtain ⟨ho, hadded⟩ := List.forall_mem_cons.mp hspelled
  refine ⟨(Universe.partitioned_filledBy added).refuses_present_iff
    (Universe.spelled_filledBy hadded) ho, ?_⟩
  obtain ⟨u, before, hrun, hadopted⟩ := introspect_connected dsn schemas hs.connect
  rw [hrun]
  exact hadopted.longest.map_pair_iff hs hlists hdistinct

/-- Two relations with dots in their names that do not clash. -/
def dottedNames : Server :=
  .answering [] []
    [.rows [[.int 1, .text "a", .text "b.c", .text "r"], [.int 2, .text "a.b", .text "d", .text "S"]],
      .rows [[.text "x"]]]
    fun _ => none

def dottedPairs : List (Option String × String) := [(some "a", "b.c"), (some "a.b", "d")]

theorem errorless_dottedNames : dottedNames.Errorless where
  connects _ h := nomatch h
  replies _ h := nomatch h
  fetches fetch h := by
    rcases List.mem_cons.mp h with rfl | h
    · exact ⟨_, rfl, by simp⟩
    · cases List.mem_singleton.mp h
      exact ⟨_, rfl, by simp⟩
  closing _ := rfl

theorem told_apart_iff_dottedNames :
    (∀ o ∈ [SourceObject.named "b.c" .view "a" [], .named "b.c" .table "a" []], o.Spelled) ∧
      ((Universe.filledBy [.named "b.c" .table "a" []]).add (.named "b.c" .view "a" [])).1 =
        some (.configuration (.objectTwice "a.b.c")) ∧
      dottedNames.Errorless ∧
      List.Forall₂ Lists ((dottedNames.answer? 0).getD []) dottedPairs ∧ dottedPairs.Nodup ∧
      (introspect (.text "db") [.text "a"] dottedNames).1.objects.values.map (·.pair) =
        dottedPairs := by
  have hspelled : ∀ o ∈ [SourceObject.named "b.c" .view "a" [], .named "b.c" .table "a" []],
      o.Spelled := by
    simp only [List.forall_mem_cons]
    exact ⟨⟨"a", "b.c", rfl, rfl⟩, ⟨"a", "b.c", rfl, rfl⟩, nofun⟩
  have hlists : List.Forall₂ Lists ((dottedNames.answer? 0).getD []) dottedPairs :=
    .cons (.relation (.int 1) "a" "b.c" rfl) (.cons (.relation (.int 2) "a.b" "d" rfl) .nil)
  have hdistinct : dottedPairs.Nodup := by decide
  have hclear : dottedPairs.Pairwise fun p q => ¬ Clash p q :=
    .cons (fun q hq hclash => by
      cases List.mem_singleton.mp hq
      exact absurd hclash.qualified_eq (by decide)) (List.pairwise_singleton _ _)
  obtain ⟨hrefused, hkept⟩ := told_apart_iff [.named "b.c" .table "a" []] _ hspelled (.text "db")
    [.text "a"] dottedNames errorless_dottedNames dottedPairs hlists hdistinct
  refine ⟨hspelled, (hrefused.mpr ?_).mpr ⟨_, List.mem_singleton_self _, rfl⟩,
    errorless_dottedNames, hlists, hdistinct, hkept.mpr hclear⟩
  intro o ho hclash
  cases List.mem_singleton.mp ho
  exact hclash.ne rfl

/-- A dot in the schema of one is the dot after that of the other. -/
theorem not_told_apart_dotted :
    ¬ ∀ (added : List SourceObject) (o : SourceObject),
      (∀ o' ∈ o :: added, o'.Spelled ∧ o'.kind.isPhysical = true) →
      (((Universe.filledBy added).add o).1 =
          some (.configuration (.objectTwice (qualified o.pair))) ↔
        ∃ o' ∈ (Universe.filledBy added).objects.values, o'.pair = o.pair) := by
  intro hright
  have h := hright [.named "b.c" .table "a" []] (.named "c" .table "a.b" []) (by
    simp only [List.forall_mem_cons]
    exact ⟨⟨⟨"a.b", "c", rfl, rfl⟩, rfl⟩, ⟨⟨"a", "b.c", rfl, rfl⟩, rfl⟩, nofun⟩)
  obtain ⟨o, ho, hpair⟩ := h.mp rfl
  cases List.mem_singleton.mp ho
  exact absurd hpair (by decide)

end Database

end ProbeForge
