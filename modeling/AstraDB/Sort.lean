/-
`SORT` and `SORT_RO`.

`SORT_RO` is `SORT`: with `STORE`, the destination is deleted and gets the sorted elements as
the members of a set.

* `sortRead_cases` — what is read;
* `same_store_iff` — when a destination is after that what it was;
* `unchanged_handleSortRo_iff` — when the command writes nothing.
-/
import AstraDB.CrossShard
import AstraDB.Deletion
import AstraDB.ReadCalls

open List CrossShard Option Stored Container

namespace ReadOnly

variable {env : DatabaseEnv}

/-! ### The command -/

/-- `ALPHA`, which makes no difference, is left out. -/
structure SortOptions where
  reverse : Bool := false
  storeDestination : Bytes := []
  limitOffset : ℕ := 0
  limitCount : ℕ := 2 ^ 64 - 1

def limitArg (env : DatabaseEnv) (error : Bytes) (arg : CommandArg) : Except Bytes ℕ :=
  match env.simpleAtoi arg.value with
  | none => .error error
  | some num => if num < 0 then .error error else .ok num.toInt.toNat

/-- The loop over the options; one that is unknown, or too short, is skipped. -/
def sortOptions (env : DatabaseEnv) : SortOptions → List CommandArg → Except Bytes SortOptions
  | options, [] => .ok options
  | options, arg :: args =>
    if !arg.isBulkString then .error (ascii "ERR wrong type of option argument")
    else if arg.value = ascii "ASC" then sortOptions env { options with reverse := false } args
    else if arg.value = ascii "DESC" then sortOptions env { options with reverse := true } args
    else if arg.value = ascii "LIMIT" then
      match args with
      | offset :: count :: args => do
        let limitOffset ← limitArg env (ascii "ERR offset is not a valid integer") offset
        let limitCount ← limitArg env (ascii "ERR count is not a valid integer") count
        sortOptions env { options with limitOffset, limitCount } args
      | args => sortOptions env options args
    else if arg.value = ascii "STORE" then
      match args with
      | dest :: args => sortOptions env { options with storeDestination := dest.value } args
      | [] => .ok options
    else if arg.value = ascii "BY" || arg.value = ascii "GET" then
      match args with
      | _ :: args => sortOptions env options args
      | [] => .ok options
    else sortOptions env options args

/-- The elements in the order of their bytes, within the limits. -/
def sortElements (options : SortOptions) (elements : List Bytes) : List Bytes :=
  let sorted := elements.mergeSort fun a b =>
    if options.reverse then decide (¬ a < b) else decide (¬ b < a)
  let start := min options.limitOffset sorted.length
  let stop := min ((start + options.limitCount) % 2 ^ 64) sorted.length
  (sorted.take stop).drop start

inductive SortOutcome
  /-- a reply before any element is read -/
  | early (reply : CommandResult)
  | sorted (key : Bytes) (type : KeyType) (destination : Bytes) (elements : List Bytes)

variable (args : List CommandArg)

/-- Up to the sorted elements. -/
def sortRead (now : Int64) (db : Store env) : SortOutcome × Store env :=
  match args with
  | [] => (.early (.ofError (Aof.wrongNumber (ascii "SORT"))), db)
  | keyArg :: args =>
    if !keyArg.isBulkString then (.early (.ofError (ascii "ERR wrong type of key argument")), db)
    else
      let key := keyArg.value
      match db.onKey key (Stored.getKeyType now) with
      | (none, db) => (.early (CrossShard.replyArray []), db)
      | (some type, db) =>
        match sortOptions env {} args with
        | .error err => (.early (.ofError err), db)
        | .ok options =>
          match type with
          | .kSet =>
            let (elements, db) := db.onKey key (Stored.sMembers now)
            (.sorted key type options.storeDestination (sortElements options elements), db)
          | .kList =>
            let (elements, db) := db.onKey key (Stored.lRange 0 (-1) now)
            (.sorted key type options.storeDestination (sortElements options elements), db)
          | .kZSet =>
            let (elements, db) := db.onKey key (Stored.zRange 0 (-1) false false now)
            (.sorted key type options.storeDestination
              (sortElements options (elements.map Prod.fst)), db)
          | _ => (.early (.ofError
              (ascii "WRONGTYPE Operation against a key holding the wrong kind of value")), db)

/-- The members of the destination, one after the other. -/
def sAddAll (dest : Bytes) : List Bytes → Evictions → Store env → Store env
  | [], _, db => db
  | member :: members, evictions, db =>
    sAddAll dest members (fun n => evictions (n + 1)) (db.sAdd dest member (evictions 0)).2

def handleSort (now : Int64) (evictions : Evictions) (db : Store env) : CommandResult × Store env :=
  match sortRead args now db with
  | (.early reply, db) => (reply, db)
  | (.sorted _ _ dest elements, db) =>
    if dest ≠ [] then
      (Aof.replyInteger (Int64.ofNat elements.length),
        sAddAll dest elements evictions (db.del dest).2)
    else (CrossShard.replyArray elements, db)

/-- The same as `SORT`. -/
def handleSortRo : List CommandArg → Int64 → Evictions → Store env → CommandResult × Store env :=
  handleSort

/-! ### What is read -/

variable {key : Bytes} {now : Int64} {s s' : Stored env} {members : List Bytes}

theorem sortRead_cases (now : Int64) (db : Store env) :
    (∃ reply calls, sortRead args now db = (.early reply, runCalls now calls db) ∧
      ∀ call ∈ calls, call.1 = .isValid) ∨
      ∃ key type dest elements, (signature now (db key)).map Prod.fst = some type ∧
        sortRead args now db = (.sorted key type dest elements,
          runCalls now [(.isValid, key),
            (if type = .kSet then .load .sets else .isValid, key)] db) := by
  match args with
  | [] => exact .inl ⟨_, [], rfl, nofun⟩
  | keyArg :: args =>
    unfold sortRead
    dsimp only
    split
    · exact .inl ⟨_, [], rfl, nofun⟩
    · have hread : db.onKey keyArg.value (getKeyType now) =
          ((signature now (db keyArg.value)).map Prod.fst,
            runCalls now [(.isValid, keyArg.value)] db) :=
        Prod.ext (by rw [signature, Option.map_map]; rfl) rfl
      have hvalid : ∀ call ∈ [(Access.isValid, keyArg.value)], call.1 = .isValid :=
        forall_mem_singleton.mpr rfl
      rw [hread]
      cases htype : (signature now (db keyArg.value)).map Prod.fst with
      | none => exact .inl ⟨_, _, rfl, hvalid⟩
      | some type =>
        dsimp only
        cases sortOptions env {} args with
        | error err => exact .inl ⟨_, _, rfl, hvalid⟩
        | ok options =>
          dsimp only
          cases type with
          | kSet | kList | kZSet =>
            refine .inr ⟨keyArg.value, _, _, _, htype, Prod.ext rfl ?_⟩
            exact congrArg (Store.modify _ _) (funext fun s => checkedRead_snd ..)
          | kNone | kString | kHash | kStream | kVector | kJson =>
            exact .inl ⟨_, _, rfl, hvalid⟩

/-! ### What is stored -/

/-- A key with its members, to which others were added. -/
structure Added (now : Int64) (added : List Bytes) (s s' : Stored env) : Prop where
  others : ∀ c, c ≠ .sets → s'.data c = s.data c
  members : ∀ m, m ∈ CrossShard.membersOf s' ↔ m ∈ added ∨ m ∈ CrossShard.membersOf s
  present : s'.data .sets = none ↔ added = [] ∧ s.data .sets = none
  signature : signature now s' =
    if added = [] ∨ s.data .sets ≠ none then signature now s else some (.kSet, none)

theorem added_sAdd (now : Int64) (dest member : Bytes) (db : Store env) :
    Added now [member] (db dest) ((db.sAdd dest member []).2 dest) := by
  have hkept : dest ∉ List.map Prod.fst ([] : List (Bytes × KeyType)) := not_mem_nil
  have hdata : ((db.sAdd dest member []).2 dest).data .sets =
      some (DashSet.insert (((db dest).data .sets).getD DashSet.empty) member) :=
    Store.data_extend hkept
  have hmetadata : ((db.sAdd dest member []).2 dest).metadata =
      ((db dest).orCreate .sets DashSet.empty).2.metadata := (Store.extend_self hkept).2
  refine ⟨fun c hc => Store.data_extend_of_ne hc hkept, fun m => ?_, ?_, ?_⟩
  · rw [membersOf_of_data hdata]
    refine mem_insert_iff.trans ?_
    rw [mem_singleton]
    refine or_congr_right ?_
    cases hset : (db dest).data .sets with
    | none =>
      rw [membersOf_of_none hset]
      rfl
    | some set =>
      rw [membersOf_of_data hset]
      rfl
  · rw [hdata]
    exact iff_of_false (some_ne_none _) fun h => absurd h.1 (cons_ne_nil _ _)
  · rw [signature_congr hmetadata]
    unfold orCreate
    cases hset : (db dest).data .sets with
    | none => exact (if_neg (by simp)).symm
    | some set => exact (if_pos (.inr (some_ne_none set))).symm

theorem Added.trans {member : Bytes} {added : List Bytes} {s'' : Stored env}
    (h : Added now [member] s s') (h' : Added now added s' s'') :
    Added now (member :: added) s s'' := by
  have hpresent : s'.data .sets ≠ none := fun hnone =>
    cons_ne_nil _ _ (h.present.mp hnone).1
  refine ⟨fun c hc => (h'.others c hc).trans (h.others c hc), fun m => ?_, ?_, ?_⟩
  · rw [h'.members, h.members, mem_singleton, mem_cons]
    tauto
  · refine iff_of_false (fun hnone => hpresent (h'.present.mp hnone).2) ?_
    exact fun hnil => cons_ne_nil _ _ hnil.1
  · rw [h'.signature, if_pos (.inr hpresent), h.signature]
    simp

theorem added_sAddAll (now : Int64) (dest : Bytes) (members : List Bytes) (db : Store env) :
    Added now members (db dest) (sAddAll dest members (fun _ => []) db dest) := by
  induction members generalizing db with
  | nil =>
    exact ⟨fun _ _ => rfl, fun _ => (or_iff_right not_mem_nil).symm,
      (and_iff_right rfl).symm, (if_pos (.inl rfl)).symm⟩
  | cons member members ih => exact (added_sAdd now dest member db).trans (ih _)

theorem sAddAll_of_ne {other dest : Bytes} (h : other ≠ dest) (members : List Bytes)
    (db : Store env) : sAddAll dest members (fun _ => []) db other = db other := by
  induction members generalizing db with
  | nil => rfl
  | cons member members ih => exact (ih _).trans (Store.extend_of_ne h not_mem_nil db)

/-! ### A destination that stays as it was -/

theorem signature_del (now : Int64) (s : Stored env) : signature now s.del.2 = none := by
  have hmetadata : s.del.2.metadata = none := by
    unfold del
    dsimp only
    split <;> rfl
  rw [signature, validMetadata, hmetadata]
  rfl

/-- There is nothing to be deleted and nothing to be stored, or the members are there already,
in a set without a deadline. -/
def Holds (now : Int64) (members : List Bytes) (s : Stored env) : Prop :=
  if members = [] then (∀ c, s.data c = none) ∧ signature now s = none
  else Container.all.find? s.has = some .sets ∧
    (∀ m, m ∈ CrossShard.membersOf s ↔ m ∈ members) ∧ signature now s = some (.kSet, none)

theorem find?_has_eq_none_iff (s : Stored env) :
    all.find? s.has = none ↔ ∀ c, s.data c = none := by
  rw [List.find?_eq_none]
  refine ⟨fun h c => ?_, fun h c _ => ?_⟩
  · have hc := h c (mem_all c)
    rwa [has, isSome_iff_ne_none, not_not] at hc
  · rw [has, h c]
    exact Bool.false_ne_true

theorem data_ne_none_of_find? {c : Container} (h : all.find? s.has = some c) :
    s.data c ≠ none := by
  have hhas : s.has c = true := List.find?_some h
  exact isSome_iff_ne_none.mp hhas

theorem contents_sets_eq_iff (hs : s.data .sets ≠ none) (hs' : s'.data .sets ≠ none) :
    contents s' .sets = contents s .sets ↔
      ∀ m, m ∈ membersOf s' ↔ m ∈ membersOf s := by
  obtain ⟨set, hset⟩ := ne_none_iff_exists'.mp hs
  obtain ⟨set', hset'⟩ := ne_none_iff_exists'.mp hs'
  rw [contents, contents, hset, hset', membersOf_of_data hset,
    membersOf_of_data hset']
  refine some_inj.trans ⟨fun h m => ?_, fun h => funext fun m => ?_⟩
  · have hm := congrFun h m
    rw [← contains_iff_mem, ← contains_iff_mem]
    exact Bool.eq_iff_iff.mp hm
  · refine Bool.eq_iff_iff.mpr ?_
    exact contains_iff_mem.trans ((h m).trans contains_iff_mem.symm)

theorem find?_of_same (h : Added now members s.del.2 s') (hsame : Same now s s') {first : Container}
    (hfirst : all.find? s.has = some first) : first = .sets := by
  by_contra hne
  refine data_ne_none_of_find? hfirst ((Access.data_eq_none_of_same hsame).mp ?_)
  rw [h.others first hne, data_del, if_pos hfirst]

theorem same_del_iff (h : Added now [] s.del.2 s') :
    Same now s s' ↔ (∀ c, s.data c = none) ∧ signature now s = none := by
  have hsignature : signature now s' = none := by
    rw [h.signature, if_pos (.inl rfl), signature_del]
  constructor
  · intro hsame
    refine ⟨(find?_has_eq_none_iff s).mp ?_, hsame.signature.symm.trans hsignature⟩
    by_contra hfind
    obtain ⟨first, hfirst⟩ := ne_none_iff_exists'.mp hfind
    obtain rfl := find?_of_same h hsame hfirst
    refine data_ne_none_of_find? hfirst ((Access.data_eq_none_of_same hsame).mp ?_)
    rw [h.present, data_del, if_pos hfirst]
    exact ⟨rfl, rfl⟩
  · rintro ⟨hdata, hnone⟩
    refine ⟨funext fun c => ?_, hsignature.trans hnone.symm⟩
    have hdel : s.del.2.data c = none := by
      rw [data_del, hdata c]
      split <;> rfl
    have hs' : s'.data c = none := by
      by_cases hc : c = .sets
      · subst hc
        exact h.present.mpr ⟨rfl, hdel⟩
      · rw [h.others c hc, hdel]
    rw [contents_eq_none_iff.mpr hs', contents_eq_none_iff.mpr (hdata c)]

theorem same_added_iff (hmembers : members ≠ []) (h : Added now members s.del.2 s') :
    Same now s s' ↔ all.find? s.has = some .sets ∧
      (∀ m, m ∈ membersOf s ↔ m ∈ members) ∧
        signature now s = some (.kSet, none) := by
  have hsome : s'.data .sets ≠ none := fun hnone => hmembers (h.present.mp hnone).1
  -- what a set deleted first has then
  have hset : all.find? s.has = some .sets →
      (∀ m, m ∈ membersOf s' ↔ m ∈ members) ∧
        signature now s' = some (.kSet, none) := by
    intro hfirst
    have hnone : s.del.2.data .sets = none := by rw [data_del, if_pos hfirst]
    refine ⟨fun m => ?_, ?_⟩
    · rw [h.members, membersOf_of_none hnone, or_iff_left not_mem_nil]
    · rw [h.signature, if_neg]
      rintro (hnil | hnot)
      · exact hmembers hnil
      · exact hnot hnone
  constructor
  · intro hsame
    have hdata : s.data .sets ≠ none := mt (Access.data_eq_none_of_same hsame).mpr hsome
    have hfirst : all.find? s.has = some .sets := by
      cases hfind : all.find? s.has with
      | none => exact absurd ((find?_has_eq_none_iff s).mp hfind .sets) hdata
      | some first => rw [find?_of_same h hsame hfind]
    obtain ⟨hin, hsignature⟩ := hset hfirst
    refine ⟨hfirst, fun m => ?_, hsame.signature.symm.trans hsignature⟩
    rw [← hin, (contents_sets_eq_iff hdata hsome).mp (congrFun hsame.contents .sets)]
  · rintro ⟨hfirst, hin, hsignature⟩
    obtain ⟨hin', hsignature'⟩ := hset hfirst
    have hdata := data_ne_none_of_find? hfirst
    refine ⟨funext fun c => ?_, hsignature'.trans hsignature.symm⟩
    by_cases hc : c = .sets
    · subst hc
      exact (contents_sets_eq_iff hdata hsome).mpr fun m => (hin' m).trans (hin m).symm
    · have hne : ¬ all.find? s.has = some c := by
        rw [hfirst]
        exact fun heq => hc (Option.some.inj heq).symm
      rw [contents, h.others c hc, data_del, if_neg hne, contents]

theorem same_store_iff (h : Added now members s.del.2 s') :
    Same now s s' ↔ Holds now members s := by
  rw [Holds]
  split
  · next hnil =>
    subst hnil
    exact same_del_iff h
  · next hmembers => exact same_added_iff hmembers h

theorem holds_congr (h : Same now s s') (members : List Bytes) :
    Holds now members s' ↔ Holds now members s := by
  have hnone : ∀ c, s'.data c = none ↔ s.data c = none := fun c => Access.data_eq_none_of_same h
  have hhas : s'.has = s.has := funext fun c => by
    rw [has, has, Bool.eq_iff_iff, isSome_iff_ne_none,
      isSome_iff_ne_none, ne_eq, hnone]
  have hmembers : ∀ m, m ∈ membersOf s' ↔ m ∈ membersOf s := by
    by_cases hdata : s.data .sets = none
    · intro m
      rw [membersOf_of_none hdata, membersOf_of_none ((hnone _).mpr hdata)]
    · exact (contents_sets_eq_iff hdata (mt (hnone _).mp hdata)).mp (congrFun h.contents .sets)
  simp only [Holds, hnone, hhas, hmembers, h.signature]

/-! ### `SORT_RO` -/

/-- The set is in memory, and a destination is what it would be. -/
def SortHarmless (now : Int64) (db : Store env) : Prop :=
  match (sortRead args now db).1 with
  | .early _ => True
  | .sorted key type dest elements =>
    (type = .kSet → (Access.load .sets).Quiet now (db key)) ∧
      (dest ≠ [] → Holds now elements (db dest))

theorem quiet_sortReads_iff (now : Int64) (type : KeyType) (key : Bytes) (db : Store env) :
    Unchanged now db (runCalls now [(.isValid, key),
        (if type = .kSet then .load .sets else .isValid, key)] db) ↔
      (type = .kSet → (Access.load .sets).Quiet now (db key)) := by
  rw [unchanged_runCalls_iff, forall_mem_cons, forall_mem_singleton]
  split
  · next htype =>
    exact ⟨fun h _ => h.2, fun h => ⟨trivial, h htype⟩⟩
  · next htype =>
    exact iff_of_true ⟨trivial, trivial⟩ fun h => absurd h htype

theorem runCalls_of_ne {calls : List (Access × Bytes)} (h : ∀ call ∈ calls, call.2 ≠ key)
    (db : Store env) : runCalls now calls db key = db key := by
  rw [runCalls_apply, filter_eq_nil_iff.mpr fun call hcall => by simp [h call hcall]]
  rfl

/-- A destination that is the source is the same only if nothing was loaded. -/
theorem quiet_of_same_store {type : KeyType} {elements : List Bytes} {d : Stored env}
    (htype : (signature now d).map Prod.fst = some type) (h : Added now elements s.del.2 s')
    (hsame : Same now d s') : (Access.load .sets).Quiet now d := by
  intro _ _ hnone
  exfalso
  have hnil : elements = [] := (h.present.mp ((Access.data_eq_none_of_same hsame).mpr hnone)).1
  have hsignature := hsame.signature
  rw [h.signature, if_pos (.inl hnil), signature_del] at hsignature
  rw [← hsignature] at htype
  cases htype

theorem unchanged_store_iff {dest : Bytes} {type : KeyType} {elements : List Bytes}
    {db read : Store env} (htype : (signature now (db key)).map Prod.fst = some type)
    (hread : Unchanged now db read ↔ (type = .kSet → (Access.load .sets).Quiet now (db key)))
    (hothers : ∀ other, other ≠ key → read other = db other) :
    Unchanged now db (sAddAll dest elements (fun _ => []) (read.del dest).2) ↔
      (type = .kSet → (Access.load .sets).Quiet now (db key)) ∧ Holds now elements (db dest) := by
  have hadded := added_sAddAll now dest elements (read.del dest).2
  rw [Store.del_self] at hadded
  have hrest : ∀ other, other ≠ dest →
      sAddAll dest elements (fun _ => []) (read.del dest).2 other = read other := fun other h =>
    (sAddAll_of_ne h elements _).trans (Store.del_of_ne h read)
  constructor
  · intro h
    have hquiet : type = .kSet → (Access.load .sets).Quiet now (db key) := by
      by_cases hdest : key = dest
      · subst hdest
        exact fun _ => quiet_of_same_store htype hadded (h key)
      · refine hread.mp fun other => ?_
        by_cases hkey : other = key
        · subst hkey
          exact hrest other hdest ▸ h other
        · rw [hothers other hkey]
          exact Same.refl now _
    have hsame := hread.mpr hquiet dest
    refine ⟨hquiet, (holds_congr hsame elements).mp ((same_store_iff hadded).mp ?_)⟩
    exact ⟨(h dest).contents.trans hsame.contents.symm,
      (h dest).signature.trans hsame.signature.symm⟩
  · rintro ⟨hquiet, hholds⟩ other
    have hsame := hread.mpr hquiet
    by_cases hdest : other = dest
    · subst hdest
      exact (hsame other).trans
        ((same_store_iff hadded).mpr ((holds_congr (hsame other) elements).mpr hholds))
    · rw [hrest other hdest]
      exact hsame other

theorem unchanged_handleSortRo_iff (now : Int64) (db : Store env) :
    Unchanged now db (handleSortRo args now (fun _ => []) db).2 ↔ SortHarmless args now db := by
  unfold handleSortRo handleSort SortHarmless
  rcases sortRead_cases args now db with ⟨reply, calls, hread, hvalid⟩ |
    ⟨key, type, dest, elements, htype, hread⟩
  · rw [hread]
    refine iff_of_true ((unchanged_runCalls_iff now calls db).mpr fun call hcall => ?_) trivial
    rw [hvalid call hcall]
    trivial
  · rw [hread]
    dsimp only
    have hquiet := quiet_sortReads_iff now type key db
    split
    · next hdest =>
      rw [unchanged_store_iff htype hquiet fun other hother => runCalls_of_ne ?_ db]
      · exact and_congr_right fun _ => ⟨fun h _ => h, fun h => h hdest⟩
      · exact forall_mem_cons.mpr ⟨Ne.symm hother,
          forall_mem_singleton.mpr (Ne.symm hother)⟩
    · next hdest => exact hquiet.trans (and_iff_left fun h => absurd h hdest).symm

end ReadOnly
