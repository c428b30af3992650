import VersionedIndex.Index.Check
import VersionedIndex.Index.Insert
import VersionedIndex.Index.Size

namespace VersionedIndex

namespace Index

def definition (ix : Index) : Index := { ix with scanDepth := 0 }

section Definition

variable (ix : Index) (see : Option Visibility) (t : Tree)

theorem any_equal_toward_definition (side : Side) (row : Row) (test : Version → Bool) (steps : Nat)
    (node : Option NodeId) : ix.definition.anyEqualToward t side row test steps node =
      ix.anyEqualToward t side row test steps node := by
  induction steps generalizing node with
  | zero => cases node <;> rfl
  | succ steps ih =>
    cases node with
    | none => rfl
    | some id =>
      simp only [anyEqualToward, ih]
      rfl

theorem any_equal_definition (id : NodeId) (test : Version → Bool) :
    ix.definition.anyEqual t id test = ix.anyEqual t id test := by
  simp only [anyEqual, any_equal_toward_definition]

theorem conflict_definition (id : NodeId) :
    ix.definition.conflict see t id = ix.conflict see t id := by
  simp only [conflict, any_equal_definition]
  rfl

theorem compare_at_definition (v : Version) (id : NodeId) (useRowId : Bool) :
    ix.definition.compareAt see t v id useRowId = ix.compareAt see t v id useRowId := by
  simp only [compareAt, any_equal_definition]
  rfl

theorem place_from_definition (v : Version) (steps : Nat) (id : NodeId) (useRowId : Bool) :
    ix.definition.placeFrom see t v steps id useRowId = ix.placeFrom see t v steps id useRowId := by
  induction steps generalizing id useRowId with
  | zero => rfl
  | succ steps ih => simp only [placeFrom, compare_at_definition, conflict_definition, ih]

theorem insert_definition (v : Version) : ix.definition.insert see v = ix.insert see v := by
  simp only [insert, place_from_definition]
  rfl

theorem first_readable_definition (sight : Visibility) (m : KeyMatch) (mode : ReadMode)
    (side : Side) (stillEqual : Row → Bool) (steps : Nat) (node : Option NodeId) :
    ix.definition.firstReadable sight t m mode side stillEqual steps node =
      ix.firstReadable sight t m mode side stillEqual steps node := by
  induction steps generalizing node with
  | zero => cases node <;> rfl
  | succ steps ih =>
    cases node with
    | none => rfl
    | some id =>
      simp only [firstReadable, ih]
      rfl

theorem search_definition (m : KeyMatch) (mode : ReadMode) (reversed : Bool)
    (compare : Row → Ordering) (stillEqual : Row → Bool) :
    ix.definition.search see t m mode reversed compare stillEqual =
      ix.search see t m mode reversed compare stillEqual := by
  have hdescend : ix.definition.descend t m reversed compare = ix.descend t m reversed compare := rfl
  simp only [search, hdescend, first_readable_definition]

theorem find_node_definition (key : List Value) (m : KeyMatch) (mode : ReadMode) (reversed : Bool) :
    ix.definition.findNode see t key m mode reversed = ix.findNode see t key m mode reversed :=
  ix.search_definition see t m mode reversed _ _

theorem count_keys_definition (before : Option Row) (rows : List Row) :
    ix.definition.countKeys before rows = ix.countKeys before rows := by
  induction rows generalizing before with
  | nil => rfl
  | cons row rows ih =>
    simp only [countKeys, ih]
    rfl

theorem trail_violations_definition (trail : List NodeId) :
    ix.definition.trailViolations t trail = ix.trailViolations t trail := by
  induction trail with
  | nil => rfl
  | cons id trail ih =>
    cases trail with
    | nil => rfl
    | cons next rest =>
      simp only [trailViolations, ih]
      rfl

theorem check_definition : ix.definition.check t = ix.check t := by
  simp only [check, trail_violations_definition]

end Definition

end Index

end VersionedIndex
