import FlatGraph.Proofs.Convert.Read
import FlatGraph.Proofs.Convert.Region
import FlatGraph.Proofs.Model.Registry
import Mathlib.Logic.Function.Iterate

/-!
# How deep a read goes

The types of a registry may hold each other in circles, so that only the record bounds a read.

**Theorem (`read_eq_levels`).** A read goes no deeper than the longest key is long, and as much
deeper as there are objects at the path of the root below it: it is the read of that many levels of
objects, whatever reads the objects beyond.

The objects inside an object are read at longer paths, each of which begins a key of the record
(`level_congr`). What `extract` adds to the entries below a path, the hint of the object, is the
beginning of no path and does not count (`KeysWithin`).

Only under the empty name, an object has the path of the root itself (`RootEnds`). A type that holds
itself there is read without end, and a chain of such types is as deep as it is long
(`not_endsWithin_dolls`).
-/

namespace FlatGraph

namespace Read

variable {r : Registry} {resolve : Resolver} {nested nested' : Nested} {path declared : String}
  {es : Entries} {p : Property} {bound depth : Nat}

/-! ## Levels -/

/-- Reads the object at a path; the objects inside it are read by `nested`. -/
def level (r : Registry) (resolve : Resolver) (nested : Nested) : Nested :=
  fun path declared es => do
    let t ← resolveType r path declared es
    let found ← (order t).mapM fun p => do
      pure (p.name, ← property resolve nested (Path.join path p.name) p es)
    pure (assemble t.name found)

/-- Reads objects inside objects, `depth` levels deep; the objects beyond are read by `beyond`. -/
def levels (r : Registry) (resolve : Resolver) (beyond : Nested) (depth : Nat) : Nested :=
  (level r resolve)^[depth] beyond

/-- The read of the object at a path goes at most `depth` levels deep: it does not matter what the
objects beyond are read by. If one of them was read at all, it would, as a failure there is a
failure of the whole. -/
def EndsWithin (r : Registry) (resolve : Resolver) (depth : Nat) (path declared : String)
    (es : Entries) : Prop :=
  ∀ beyond beyond' : Nested,
    levels r resolve beyond depth path declared es = levels r resolve beyond' depth path declared es

theorem levels_succ (r : Registry) (resolve : Resolver) (beyond : Nested) (depth : Nat) :
    levels r resolve beyond (depth + 1) = level r resolve (levels r resolve beyond depth) :=
  Function.iterate_succ_apply' _ _ _

theorem levels_add (r : Registry) (resolve : Resolver) (beyond : Nested) (m n : Nat) :
    levels r resolve beyond (m + n) = levels r resolve (levels r resolve beyond n) m :=
  Function.iterate_add_apply _ _ _ _

/-- The bounded read is that of as many levels, with an error beyond. -/
theorem object_eq_levels (r : Registry) (resolve : Resolver) (depth : Nat) :
    object r resolve depth =
      levels r resolve (fun path declared _ => Traced.fail (.endless declared path)) depth := by
  induction depth with
  | zero => rfl
  | succ depth ih =>
    rw [levels_succ, ← ih]
    rfl

/-! ## What a level depends on -/

theorem below_of_mem_elementKeys {type : TypeRef} {reference : Bool} {q : String}
    (h : q ∈ elementKeys type reference es path) : Path.Below path q := by
  obtain ⟨k, -, ho⟩ := mem_elementKeys_iff.1 h
  rcases isLeaf_or_nested type reference with hl | ⟨name, rfl, rfl⟩
  · have hb := below_of_owner ho
    rw [owner_of_isLeaf hl] at ho
    split_ifs at ho
    exact Option.some.inj ho ▸ hb
  · obtain ⟨text, rest, -, rfl, -⟩ := Path.elementPath?_eq_some_iff.1 ho
    exact Path.below_element path text

theorem valueAt_congr {type : TypeRef} {reference : Bool}
    (h : ∀ name, type = .entity name → reference = false → (es.extract path).size ≠ 0 →
      nested path name (es.extract path) = nested' path name (es.extract path)) :
    valueAt resolve nested type reference es path =
      valueAt resolve nested' type reference es path := by
  rcases isLeaf_or_nested type reference with hl | ⟨name, rfl, rfl⟩
  · rw [valueAt_of_isLeaf hl, valueAt_of_isLeaf hl]
  · show Read.inner nested path name es = Read.inner nested' path name es
    unfold Read.inner
    dsimp only
    split
    · rfl
    · next hs => rw [h name rfl rfl hs]

/-- A property depends on the objects below its path, and on the one at the path itself if it holds
one object. -/
theorem property_congr
    (hself : p.isNested = true → (es.extract path).size ≠ 0 →
      nested path p.shape.type.name (es.extract path) =
        nested' path p.shape.type.name (es.extract path))
    (h : ∀ q name, Path.Below path q → (es.extract q).size ≠ 0 →
      nested q name (es.extract q) = nested' q name (es.extract q)) :
    property resolve nested path p es = property resolve nested' path p es := by
  match hs : p.shape with
  | .single type =>
    rw [property_single hs, property_single hs]
    refine valueAt_congr fun name ht hr hsize => ?_
    have hnested : p.isNested = true := by
      rw [Property.isNested, hs, ht, hr]
      rfl
    have := hself hnested hsize
    rwa [hs, ht] at this
  | .list type =>
    unfold property
    rw [hs]
    simp only [elements_eq]
    rw [Traced.mapM_congr fun q hq => by
      rw [valueAt_congr fun name _ _ => h q name (below_of_mem_elementKeys hq)]]
  | .map key type =>
    unfold property
    rw [hs]
    simp only [mapEntries_eq]
    rw [Traced.mapM_congr fun q hq => by
      rw [valueAt_congr fun name _ _ => h q name (below_of_mem_elementKeys hq)]]

/-- **An object depends on the objects at longer paths**, and the root on what it holds under the
empty name. -/
theorem level_congr
    (hself : path = "" → ∀ t, resolveType r path declared es = .ok t → ∀ p ∈ t.properties,
      p.isNested = true → p.name = "" → (es.extract path).size ≠ 0 →
      nested path p.shape.type.name (es.extract path) =
        nested' path p.shape.type.name (es.extract path))
    (h : ∀ q name, path.length < q.length → (es.extract q).size ≠ 0 →
      nested q name (es.extract q) = nested' q name (es.extract q)) :
    level r resolve nested path declared es = level r resolve nested' path declared es := by
  unfold level
  refine Traced.bind_congr fun t ht => ?_
  refine congrArg (· >>= _) (Traced.mapM_congr fun p hp => ?_)
  have hmem : p ∈ t.properties := (List.filter_append_perm _ _).mem_iff.1 hp
  rw [property_congr (fun hn hs => ?_) fun q name hq => h q name ?_]
  · by_cases hbase : path = ""
    · by_cases hname : p.name = ""
      · have hjoin : Path.join path p.name = path := by rw [hbase, hname, Path.join_empty]
        rw [hjoin] at hs ⊢
        exact hself hbase t ht p hmem hn hname hs
      · exact h _ _ (Path.length_lt_join hname) hs
    · exact h _ _ (Path.below_join hbase p.name).length_lt hs
  · have hjoin : path.length ≤ (Path.join path p.name).length := by
      by_cases hname : p.name = ""
      · by_cases hbase : path = ""
        · simp [hbase]
        · exact (Path.below_join hbase p.name).length_lt.le
      · exact (Path.length_lt_join hname).le
    exact hjoin.trans_lt hq.length_lt

/-! ## The bound -/

/-- Apart from hints, no key is longer than the bound. -/
def KeysWithin (bound : Nat) (es : Entries) : Prop :=
  ∀ k, k ≠ Path.hint → es.get? k ≠ none → k.length ≤ bound

theorem keysWithin_longestKey (es : Entries) : KeysWithin es.longestKey es := fun k _ hk => by
  obtain ⟨v, hv⟩ := Option.ne_none_iff_exists'.1 hk
  exact Entries.le_longestKey (Entries.get?_eq_some_iff.1 hv)

theorem KeysWithin.extract (h : KeysWithin bound es) (path : String) :
    KeysWithin bound (es.extract path) := fun k hne hk => by
  rw [Entries.get?_extract, if_neg fun h' => hne h'.1] at hk
  split_ifs at hk
  · exact h k hne hk
  · exact absurd rfl hk

/-- What lies below a path has a longer key. -/
theorem KeysWithin.length_lt (h : KeysWithin bound es) (hp : path ≠ "")
    (hs : (es.extract path).size ≠ 0) : path.length < bound := by
  rw [Ne, Entries.size_extract_eq_zero_iff hp, not_forall] at hs
  obtain ⟨k, hk⟩ := hs
  obtain ⟨hb, hg⟩ := Classical.not_imp.1 hk
  have hne : k ≠ Path.hint := by
    rintro rfl
    exact Path.not_below_hint path hb
  exact hb.length_lt.trans_le (h k hne hg)

/-- A read goes as deep as paths can become longer. -/
theorem endsWithin_of_keysWithin (hk : KeysWithin bound es) (hne : path ≠ "")
    (hp : path.length < bound) (hd : bound ≤ path.length + depth) :
    EndsWithin r resolve depth path declared es := by
  induction depth generalizing path declared es with
  | zero => omega
  | succ depth ih =>
    intro beyond beyond'
    rw [levels_succ, levels_succ]
    refine level_congr (fun h => absurd h hne) fun q name hq hs => ?_
    have hq0 : q ≠ "" := by
      rintro rfl
      exact absurd hq (Nat.not_lt_zero _)
    exact ih (hk.extract q) hq0 (hk.length_lt hq0 hs) (by omega) _ _

/-- At the path of the root, there are objects at most so many steps below it: after that, what is
found there holds no object under the empty name, or there are no entries to read one from. -/
def RootEnds (r : Registry) : Nat → String → Entries → Prop
  | steps, declared, es => ∀ t, resolveType r "" declared es = .ok t → ∀ p ∈ t.properties,
    p.isNested = true → p.name = "" → (es.extract "").size ≠ 0 →
      match steps with
      | 0 => False
      | steps + 1 => RootEnds r steps p.shape.type.name (es.extract "")

/-- The root is read as deep as paths can become longer, after the objects at its own path. -/
theorem endsWithin_root (hk : KeysWithin bound es) (hpos : 0 < bound) {steps : Nat}
    (hroot : RootEnds r steps declared es) :
    EndsWithin r resolve (bound + steps) "" declared es := by
  have hbelow : ∀ {es : Entries} {depth : Nat}, KeysWithin bound es → bound ≤ depth + 1 →
      ∀ q name, 0 < q.length → (es.extract q).size ≠ 0 →
        EndsWithin r resolve depth q name (es.extract q) := by
    intro es depth hk hd q name hq hs
    have hne : q ≠ "" := fun h => absurd hq (by simp [h])
    exact endsWithin_of_keysWithin (hk.extract q) hne (hk.length_lt hne hs) (by omega)
  induction steps generalizing declared es with
  | zero =>
    obtain ⟨depth, rfl⟩ := Nat.exists_eq_succ_of_ne_zero hpos.ne'
    intro beyond beyond'
    rw [Nat.add_zero, levels_succ, levels_succ]
    exact level_congr (fun _ t ht p hp hn hname hs => (hroot t ht p hp hn hname hs).elim)
      fun q name hq hs => hbelow hk le_rfl q name hq hs _ _
  | succ steps ih =>
    intro beyond beyond'
    rw [← Nat.add_assoc, levels_succ, levels_succ]
    refine level_congr (fun _ t ht p hp hn hname hs => ?_)
      fun q name hq hs => hbelow hk (by omega) q name hq hs _ _
    exact ih (hk.extract "") (hroot t ht p hp hn hname hs) _ _

end Read

/-- The bound on the depth of a read is as good as any before it at which the read ends. -/
theorem Registry.read_eq_of_endsWithin {r : Registry} {resolve : Resolver} {type : String}
    {es : Entries} {depth : Nat} (hdepth : depth ≤ r.depthFor es)
    (h : es.size ≠ 0 → Read.EndsWithin r resolve depth "" type es) (beyond : Read.Nested) :
    r.read resolve type es =
      if es.size = 0 then pure none
      else some <$> Read.levels r resolve beyond depth "" type es := by
  unfold Registry.read
  split
  · rfl
  · next hs =>
    rw [Read.object_eq_levels, ← Nat.add_sub_cancel' hdepth, Read.levels_add, h hs _ beyond,
      map_eq_pure_bind]

/-- **A read goes no deeper than the longest key is long**, and as much deeper as there are objects
at the path of the root below it. -/
theorem Registry.read_eq_levels {r : Registry} {resolve : Resolver} {type : String} {es : Entries}
    {steps : Nat} (hsteps : steps ≤ r.size + 2) (h : Read.RootEnds r steps type es)
    (beyond : Read.Nested) :
    r.read resolve type es =
      if es.size = 0 then pure none
      else some <$> Read.levels r resolve beyond (es.longestKey + steps) "" type es := by
  refine read_eq_of_endsWithin (by unfold depthFor; omega) (fun hs => ?_) beyond
  exact Read.endsWithin_root (Read.keysWithin_longestKey es) (Entries.longestKey_pos hs) h

/-- Where no property has an empty name, there is no object at the path of the root but the root, so
that a read goes no deeper than the longest key is long. -/
theorem Registry.read_eq_of_names {r : Registry} {resolve : Resolver} {type : String}
    {es : Entries} (hr : ∀ name t, r.find? name = some t → ∀ p ∈ t.properties, p.name ≠ "")
    (beyond : Read.Nested) :
    r.read resolve type es =
      if es.size = 0 then pure none
      else some <$> Read.levels r resolve beyond es.longestKey "" type es := by
  have hroot : Read.RootEnds r 0 type es := by
    intro t ht p hp _ hname
    obtain ⟨name, hfound⟩ := Read.find?_of_resolveType ht
    exact absurd hname (hr name t hfound p hp)
  refine read_eq_of_endsWithin (by unfold depthFor; omega) (fun hs => ?_) beyond
  exact Read.endsWithin_root (Read.keysWithin_longestKey es) (Entries.longestKey_pos hs) hroot

/-! ## Dolls -/

namespace Dolls

open Read

/-- One doll that another one holds. -/
def holding (name type : String) : Property := { name, shape := .single (.entity type) }

/-- A doll with a doll inside. -/
def doll : EntityType := { name := "Doll", properties := [holding "inner" "Doll"] }

/-- A doll that holds one like itself under the empty name. -/
def hollow : EntityType := { name := "Hollow", properties := [holding "" "Hollow"] }

/-- A doll that holds a smaller one under the empty name. -/
def huge : EntityType := { name := "Huge", properties := [holding "" "Large"] }

/-- A doll that holds a smaller one under the empty name. -/
def large : EntityType := { name := "Large", properties := [holding "" "Medium"] }

/-- A doll that holds the smallest one under the empty name. -/
def medium : EntityType := { name := "Medium", properties := [holding "" "Small"] }

/-- A doll that holds none. -/
def small : EntityType := { name := "Small" }

/-- The registry of the dolls. -/
def dolls : Registry :=
  ⟨[("Doll", doll), ("Hollow", hollow), ("Huge", huge), ("Large", large), ("Medium", medium),
    ("Small", small)]⟩

theorem built_dolls : dolls.Built :=
  .register (.register (.register (.register (.register (.register .empty (t := doll) (by rfl))
    (t := hollow) (by rfl)) (t := huge) (by rfl)) (t := large) (by rfl)) (t := medium) (by rfl))
    (t := small) (by rfl)

/-- A doll with two others inside. -/
def three : Entries := Entries.empty.putAll [("inner.inner.name", Utf8.encode "Masha")]

/-- A record of one entry, below the empty path. -/
def scrap : Entries := Entries.empty.putAll [(".", Utf8.encode "x")]

/-- Dolls under names of their own are read to the end, and so is one that holds the smallest one
under the empty name. -/
theorem read_dolls : 1 ≤ dolls.size + 2 ∧ RootEnds dolls 0 "Doll" three ∧
    RootEnds dolls 1 "Medium" scrap ∧
    (∀ beyond, dolls.read .nothing "Doll" three = if three.size = 0 then pure none
      else some <$> levels dolls .nothing beyond three.longestKey "" "Doll" three) ∧
    ∀ beyond, dolls.read .nothing "Medium" scrap = if scrap.size = 0 then pure none
      else some <$> levels dolls .nothing beyond (scrap.longestKey + 1) "" "Medium" scrap := by
  have hdoll : RootEnds dolls 0 "Doll" three := by
    intro t ht p hp _ hname
    have hfound : resolveType dolls "" "Doll" three = .ok doll := by decide +kernel
    cases hfound.symm.trans ht
    cases List.mem_singleton.1 hp
    exact absurd hname (by decide)
  have hmedium : RootEnds dolls 1 "Medium" scrap := by
    intro t ht p hp _ _ _ u hu q hq
    have hfound : resolveType dolls "" "Medium" scrap = .ok medium := by decide +kernel
    cases hfound.symm.trans ht
    cases List.mem_singleton.1 hp
    have hinside : resolveType dolls "" "Small" (scrap.extract "") = .ok small := by decide +kernel
    cases hinside.symm.trans hu
    cases hq
  have hsize : 1 ≤ dolls.size + 2 := by decide
  exact ⟨hsize, hdoll, hmedium, Registry.read_eq_levels (Nat.zero_le _) hdoll,
    Registry.read_eq_levels hsize hmedium⟩

/-- A doll that holds another one under the empty name fails as that one does: it is read at the
same path, from the same entries. -/
theorem outcome_level_scrap {nested : Nested} {t : EntityType} {declared inside : String}
    {e : Error} (ht : resolveType dolls "" declared scrap = .ok t)
    (hp : t.properties = [holding "" inside])
    (he : (nested "" inside scrap).outcome = .error e) :
    (level dolls .nothing nested "" declared scrap).outcome = .error e := by
  have hextract : scrap.extract "" = scrap := Entries.ext_toList (by decide +kernel)
  have hsize : scrap.size ≠ 0 := by decide +kernel
  have horder : order t = [holding "" inside] := by
    rw [order, hp]
    rfl
  have hproperty : property .nothing nested "" (holding "" inside) scrap =
      (do pure (some (← nested "" inside scrap).toValue)) := by
    show Read.inner nested "" inside scrap = _
    rw [Read.inner, hextract, if_neg hsize]
  rw [level, ht]
  show Traced.outcome ((order t).mapM _ >>= _) = _
  rw [horder, List.mapM_cons]
  show ((property .nothing nested "" (holding "" inside) scrap >>= _) >>= _ >>= _).outcome = _
  rw [hproperty, Traced.bind_of_error he]
  rfl

theorem not_endsWithin_of_error {r : Registry} {resolve : Resolver} {depth : Nat}
    {path declared : String} {es : Entries}
    (h : ∀ e, (levels r resolve (fun _ _ _ => Traced.fail e) depth path declared es).outcome =
      .error e) : ¬ EndsWithin r resolve depth path declared es := by
  intro hends
  have heq := congrArg Traced.outcome (hends (fun _ _ _ => Traced.fail .json)
    fun _ _ _ => Traced.fail (.unknownType ""))
  rw [h, h] at heq
  cases heq

/-- A hollow doll is read without end, and dolls under empty names are deeper than their record has
long keys: the last one is three levels below the first, and no key is longer than one. -/
theorem not_endsWithin_dolls : dolls.Built ∧
    (∀ depth, ¬ EndsWithin dolls .nothing depth "" "Hollow" scrap) ∧
    ¬ EndsWithin dolls .nothing (scrap.longestKey + 2) "" "Huge" scrap := by
  refine ⟨built_dolls, fun depth => not_endsWithin_of_error fun e => ?_,
    not_endsWithin_of_error fun e => ?_⟩
  · induction depth with
    | zero => rfl
    | succ depth ih =>
      rw [levels_succ]
      exact outcome_level_scrap (t := hollow) (by decide +kernel) rfl ih
  · have hlong : scrap.longestKey = 1 := by decide +kernel
    rw [hlong, levels_succ, levels_succ, levels_succ]
    exact outcome_level_scrap (t := huge) (by decide +kernel) rfl
      (outcome_level_scrap (t := large) (by decide +kernel) rfl
        (outcome_level_scrap (t := medium) (by decide +kernel) rfl rfl))

end Dolls

end FlatGraph
