/-
`RENAME`: a key under another name.

The value is read with `Get`, which only finds strings, stored with `Set` and deleted under the
old name with `Del`.  The deadline is not taken along, what the new name had in other maps
stays, and if both names are the same the key is lost.

* `moved_iff` — for which keys the value, its type and its deadline are moved.
-/
import AstraDB.Aof
import AstraDB.Deletion

open Store Stored

namespace Rename

variable {env : DatabaseEnv}

def noSuchKey : CommandResult := .ofError (ascii "ERR no such key")

def handleRename (args : List CommandArg) (now : Int64) (victims : List (Bytes × KeyType))
    (db : Store env) : CommandResult × Store env :=
  match args with
  | [key, newkey] =>
    if !key.isBulkString || !newkey.isBulkString then
      (.ofError (ascii "ERR wrong type of key argument"), db)
    else
      match db.onKey key.value Stored.get with
      | (none, db) => (noSuchKey, db)
      | (some existing, db) =>
        match db.onKey key.value (Stored.getKeyType now) with
        | (none, db) => (noSuchKey, db)
        | (some _, db) =>
          (Aof.replyOk, ((db.set newkey.value existing victims).del key.value).2)
  | _ => (.ofError (Aof.wrongNumber (ascii "RENAME")), db)

def signature (s : Stored env) : Option (KeyType × Option Int64) :=
  s.metadata.map fun m => (m.type, m.expireTimeMs)

/-- The key `b` is what `a` was; keys that were evicted are not looked at. -/
structure Moved (a b : Bytes) (victims : List (Bytes × KeyType)) (db db' : Store env) : Prop where
  value : (db' b).data = (db a).data
  signature : signature (db' b) = signature (db a)
  gone : a ≠ b → ∀ now, (db' a).FindsNothing now
  others : ∀ k, k ≠ a → k ≠ b → k ∉ victims.map Prod.fst → db' k = db k
  same : a = b → db' = db

/-- A string that can be moved to a name with this content. -/
structure Movable (s t : Stored env) : Prop where
  string : s.has .strings = true
  others : ∀ c, c ≠ .strings → t.data c = s.data c
  signature : signature s =
    if t.has .strings then signature t else some (.kString, none)
  removable : s.Removable

def args (a b : Bytes) : List CommandArg :=
  [.ofString a .kBulkString, .ofString b .kBulkString]

section

variable {a b : Bytes} {now : Int64} {victims : List (Bytes × KeyType)} {db : Store env}
  {m : KeyMetadata}

theorem getKeyType_of_metadata {s : Stored env} (hm : s.metadata = some m)
    (h : m.isExpired now = false) : s.getKeyType now = (some m.type, s) := by
  rw [getKeyType, validMetadata, hm]
  dsimp only
  rw [h]
  rfl

theorem handleRename_of_none (h : (db a).get = (none, db a)) :
    handleRename (args a b) now victims db = (noSuchKey, db) := by
  have hread : db.onKey a get = (none, db) := onKey_eq h
  change (match db.onKey a get with
    | (none, db) => (noSuchKey, db)
    | (some existing, db) => _) = _
  rw [hread]

theorem handleRename_of_some {existing : Bytes} {read : Store env}
    (hread : db.onKey a get = (some existing, read)) (hm : (read a).metadata = some m)
    (hlive : m.isExpired now = false) :
    handleRename (args a b) now victims db =
      (Aof.replyOk, ((read.set b existing victims).del a).2) := by
  have htype : read.onKey a (getKeyType now) = (some m.type, read) :=
    onKey_eq (getKeyType_of_metadata hm hlive)
  change (match db.onKey a get with
    | (none, db) => (noSuchKey, db)
    | (some existing, db) =>
      match db.onKey a (getKeyType now) with
      | (none, db) => (noSuchKey, db)
      | (some _, db) => (Aof.replyOk, ((db.set b existing victims).del a).2)) = _
  rw [hread]
  dsimp only
  rw [htype]

theorem handleRename_cases (b : Bytes) (victims : List (Bytes × KeyType))
    (hm : (db a).metadata = some m) (hlive : m.isExpired now = false) :
    (∃ existing, (db a).data .strings = some existing ∧
      (handleRename (args a b) now victims db).2 = ((db.set b existing victims).del a).2) ∨
    ((db a).data .strings = none ∧ (db a).get.1 ≠ none ∧ ∃ existing read,
      (handleRename (args a b) now victims db).2 =
        ((Store.set b existing victims read).del a).2) ∨
    ((db a).data .strings = none ∧ (db a).get.1 = none ∧
      (handleRename (args a b) now victims db).2 = db) := by
  cases hdata : (db a).data .strings with
  | some existing =>
    exact .inl ⟨existing, rfl,
      congrArg Prod.snd (handleRename_of_some (get_of_data hdata) hm hlive)⟩
  | none =>
    refine .inr ?_
    obtain hget | ⟨existing, hget⟩ := readThrough_of_none hdata
      env.deserializeString
    · exact .inr ⟨rfl, congrArg Prod.fst hget, congrArg Prod.snd (handleRename_of_none hget)⟩
    · have hread : db.onKey a get =
          (some existing, db.modify a fun s => s.get.2) :=
        congrArg (·, db.modify a fun s => s.get.2) (congrArg Prod.fst hget)
      have hloaded : db.modify a (fun s => s.get.2) a = (db a).load .strings (some existing) :=
        (db.modify_self a fun s => s.get.2).trans (congrArg Prod.snd hget)
      refine .inl ⟨rfl, ?_, existing, _, congrArg Prod.snd (handleRename_of_some hread
        (congrArg metadata hloaded) rfl)⟩
      exact fun hnone => absurd ((congrArg Prod.fst hget).symm.trans hnone)
        (Option.some_ne_none existing)

end

section

variable {a b : Bytes} {victims : List (Bytes × KeyType)}

theorem signature_set (hb : b ∉ victims.map Prod.fst) (existing : Bytes) (db : Store env) :
    signature (db.set b existing victims b) =
      if (db b).has .strings then signature (db b) else some (.kString, none) := by
  rw [signature, (set_self hb existing db).2, insertString]
  split
  · rw [signature]
    change ((db b).metadata.map _).map _ = _
    rw [Option.map_map]
    rfl
  · rfl

theorem data_set_eq_iff (hb : b ∉ victims.map Prod.fst) {existing : Bytes} {s : Stored env}
    (hs : s.data .strings = some existing) (db : Store env) :
    (db.set b existing victims b).data = s.data ↔ ∀ c, c ≠ .strings → (db b).data c = s.data c := by
  constructor
  · intro h c hc
    rw [← h, data_set_of_ne hc hb]
  · intro h
    funext c
    by_cases hc : c = .strings
    · rw [hc, hs]
      exact data_set hb existing db
    · rw [data_set_of_ne hc hb, h c hc]

theorem moved_set_iff (hne : a ≠ b) (ha : a ∉ victims.map Prod.fst) (hb : b ∉ victims.map Prod.fst)
    {existing : Bytes} {db : Store env} (hdata : (db a).data .strings = some existing) :
    Moved a b victims db ((db.set b existing victims).del a).2 ↔ Movable (db a) (db b) := by
  have hb' : ((db.set b existing victims).del a).2 b = db.set b existing victims b :=
    del_of_ne hne.symm _
  have ha' : ((db.set b existing victims).del a).2 a = (db a).del.2 := by
    rw [del_self, set_of_ne hne ha]
  have hgone : (∀ now, ((db a).del.2).FindsNothing now) ↔ (db a).Removable := by
    rw [← blank_del_iff]
    refine ⟨fun h => (findsNothing_iff.mp (h 0)).2, fun h now => ?_⟩
    exact findsNothing_iff.mpr ⟨isValid_del now (db a), h⟩
  constructor
  · intro h
    have hvalue := h.value
    have hsignature := h.signature
    rw [hb'] at hvalue hsignature
    refine ⟨?_, (data_set_eq_iff hb hdata db).mp hvalue, ?_,
      hgone.mp fun now => ha' ▸ h.gone hne now⟩
    · rw [has, hdata]
      rfl
    · rw [← hsignature, signature_set hb]
  · intro h
    refine ⟨?_, ?_, fun _ now => ?_, fun k hka hkb hk => ?_, fun heq => absurd heq hne⟩
    · rw [hb']
      exact (data_set_eq_iff hb hdata db).mpr h.others
    · rw [hb', signature_set hb, h.signature]
    · rw [ha']
      exact hgone.mpr h.removable now
    · rw [del_of_ne hka, set_of_ne hkb hk]

end

theorem not_movable_of_none {s : Stored env} (h : s.data .strings = none) (t : Stored env) :
    ¬ Movable s t := by
  intro hmovable
  have hhas := hmovable.string
  rw [has, h] at hhas
  cases hhas

/-- Which keys can be renamed. -/
theorem moved_iff (env : DatabaseEnv) (db : Store env) (a b : Bytes) (now : Int64)
    (victims : List (Bytes × KeyType)) (m : KeyMetadata) (hm : (db a).metadata = some m)
    (hlive : m.isExpired now = false) (ha : a ∉ victims.map Prod.fst)
    (hb : b ∉ victims.map Prod.fst) :
    Moved a b victims db (handleRename (args a b) now victims db).2 ↔
      (a = b ∧ (db a).get.1 = none) ∨ (a ≠ b ∧ Movable (db a) (db b)) := by
  have hvalid : ((db a).isValid now).1 = true := by rw [isValid_of_metadata hm hlive]
  -- a key that was set is no longer there after it was deleted
  have hlost : ∀ read : Store env, a = b → ¬ Moved a b victims db (read.del a).2 := by
    intro read heq hmoved
    have hdel := isValid_del now (read a)
    rw [← del_self, hmoved.same heq, hvalid] at hdel
    exact Bool.false_ne_true hdel.symm
  rcases handleRename_cases b victims hm hlive with
    ⟨existing, hdata, hafter⟩ | ⟨hdata, hget, existing, read, hafter⟩ | ⟨hdata, hget, hafter⟩
  · have hget : (db a).get.1 = some existing :=
      congrArg Prod.fst (readThrough_of_data hdata _)
    rw [hafter, hget]
    by_cases heq : a = b
    · refine iff_of_false (hlost _ heq) ?_
      rintro (⟨-, h⟩ | ⟨hne, -⟩)
      · cases h
      · exact hne heq
    · rw [moved_set_iff heq ha hb hdata]
      simp [heq]
  · rw [hafter]
    refine iff_of_false (fun hmoved => ?_) ?_
    · by_cases heq : a = b
      · exact hlost _ heq hmoved
      · have hvalue := congrFun hmoved.value .strings
        rw [del_of_ne (Ne.symm heq), hdata] at hvalue
        exact absurd ((data_set hb existing read).symm.trans hvalue) (Option.some_ne_none _)
    · rintro (⟨-, h⟩ | ⟨-, h⟩)
      · exact hget h
      · exact not_movable_of_none hdata (db b) h
  · rw [hafter]
    by_cases heq : a = b
    · refine iff_of_true ?_ (.inl ⟨heq, hget⟩)
      subst heq
      exact ⟨rfl, rfl, fun h => absurd rfl h, fun _ _ _ _ => rfl, fun _ => rfl⟩
    · refine iff_of_false (fun hmoved => ?_) ?_
      · have hgone := (hmoved.gone heq now).isValid
        rw [hvalid] at hgone
        exact Bool.false_ne_true hgone.symm
      · rintro (⟨h, -⟩ | ⟨-, h⟩)
        · exact heq h
        · exact not_movable_of_none hdata (db b) h

def stringAndHash : Store simpleDatabase :=
  ((Store.empty.set (ascii "a") (ascii "v") []).hSet (ascii "h") (ascii "f") (ascii "v") []).2

theorem moved_iff_stringAndHash :
    Moved (ascii "a") (ascii "b") [] stringAndHash
      (handleRename (args (ascii "a") (ascii "b")) 0 [] stringAndHash).2 := by
  refine (moved_iff simpleDatabase stringAndHash (ascii "a") (ascii "b") 0 []
    ⟨.kString, none, 1⟩ rfl rfl List.not_mem_nil List.not_mem_nil).mpr
    (.inr ⟨by decide, rfl, fun c hc => ?_, rfl, ⟨fun c hc hhas => ?_, fun h => ?_⟩⟩)
  · exact (data_put_of_ne hc empty (ascii "v")).symm
  · revert c
    decide
  · cases h

/-- The hash is not found, and the string does not survive its own name. -/
theorem hash_not_moved :
    handleRename (args (ascii "h") (ascii "b")) 0 [] stringAndHash = (noSuchKey, stringAndHash) ∧
      ¬ Moved (ascii "h") (ascii "b") [] stringAndHash
        (handleRename (args (ascii "h") (ascii "b")) 0 [] stringAndHash).2 ∧
      ¬ Moved (ascii "a") (ascii "a") [] stringAndHash
        (handleRename (args (ascii "a") (ascii "a")) 0 [] stringAndHash).2 := by
  have hhash : handleRename (args (ascii "h") (ascii "b")) 0 [] stringAndHash =
      (noSuchKey, stringAndHash) := handleRename_of_none rfl
  refine ⟨hhash, fun h => ?_, fun h => ?_⟩
  · rw [hhash] at h
    have hgone := (h.gone (by decide) 0).isValid
    exact absurd hgone (by decide)
  · have hsignature := h.signature
    exact absurd hsignature (by decide)

end Rename
