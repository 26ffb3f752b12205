import ShapeLedger.Proofs.MemberDiff
import ShapeLedger.Proofs.Sessions

/-!
Reported migrations. A migration is reported for fingerprints that differ as
texts, its changes are those between tables in which of several members of one
name the last counts. So a migration without changes is one between shapes whose
last members of each name agree, and if no name is repeated on either side, a
reported migration has a change.
-/

namespace ShapeLedger

open Shape

namespace MemberShape

/-- Of several members of one name, the one that counts. -/
def lastNamed? (ms : List MemberShape) (name : String) : Option MemberShape :=
  ms.reverse.find? fun m => m.name = name

end MemberShape

open MemberShape (bySegment lastNamed?)

theorem Shape.diff_eq_nil_iff {old new : String} : diff old new = [] ↔
    ∀ name, lastNamed? (members old) name = lastNamed? (members new) name := by
  have hlast (text name : String) :
      (memberTable text).find? name = lastNamed? (members text) name :=
    NameTable.find?_ofList (members text) name
  rw [diff, changes_eq_nil_iff]
  constructor
  · intro h name
    rw [← hlast, ← hlast, h]
  · intro h
    refine NameTable.ext_find? fun name => ?_
    rw [hlast, hlast, h]

namespace Registry

variable {r : Registry} {c c' : Catalog} {cfg cfg' : Config} {name : String} {e : Entry}
  {v w : UInt32} {reported : List Change}

theorem exists_fingerprintOf_of_migrationRequired (hlatest : r.latest? name = some e)
    (hcheck : r.checkType c cfg name = .ok (.migrationRequired v w reported)) :
    ∃ h, c.fingerprintOf cfg name = .ok h ∧ e.hash ≠ h ∧ diff e.hash h = reported := by
  rw [checkType] at hcheck
  split at hcheck
  · cases hcheck
  · rename_i h hfingerprint
    rw [Except.ok.injEq] at hcheck
    obtain ⟨e', latest, differs, -, -, hdiff⟩ := check_eq_migrationRequired_iff.mp hcheck
    cases hlatest.symm.trans latest
    exact ⟨h, hfingerprint, differs, hdiff⟩

/-- The migration that is reported between two catalogs, from the latest fingerprint on, changes
nothing just if the last members of each name agree, which they do not if no name is repeated. -/
theorem changes_of_migrationRequired (hc : c.NamesAvoid marks) (hdash : c.MemberNamesAvoid ['-'])
    (hc' : c'.NamesAvoid marks) (hdash' : c'.MemberNamesAvoid ['-'])
    (hlatest : r.latest? name = some e) (hrecorded : c.fingerprintOf cfg name = .ok e.hash)
    (hcheck : r.checkType c' cfg' name = .ok (.migrationRequired v w reported)) :
    (∃ ss ss', c.ShowsMembers cfg name ss ∧ c'.ShowsMembers cfg' name ss' ∧
      (reported = [] ↔ ∀ n, lastNamed? (bySegment ss) n = lastNamed? (bySegment ss') n)) ∧
    (((c.shownMembers cfg name).map Member.name).Nodup →
      ((c'.shownMembers cfg' name).map Member.name).Nodup → reported ≠ []) := by
  obtain ⟨h, hpresent, differs, rfl⟩ := exists_fingerprintOf_of_migrationRequired hlatest hcheck
  obtain ⟨ss, hss, htext, hmembers⟩ := Catalog.members_of_fingerprintOf hc hdash hrecorded
  obtain ⟨ss', hss', htext', hmembers'⟩ := Catalog.members_of_fingerprintOf hc' hdash' hpresent
  refine ⟨⟨ss, ss', hss, hss', ?_⟩, fun hnodup hnodup' hnil => ?_⟩
  · rw [diff_eq_nil_iff, hmembers, hmembers']
  · rw [← hss.names] at hnodup
    rw [← hss'.names] at hnodup'
    have hdiff := Catalog.diff_eq_changes hnodup hnodup' hmembers hmembers'
    exact differs
      ((Catalog.changes_eq_nil_iff_of_nodup hnodup hnodup' htext htext' hdiff).mp hnil)

/-- The version that a session makes of the nodes with items. -/
def nodesEntry : Entry :=
  ⟨"Node", 0, "List`1(Node)-Items|Node-Next", .ofText "List`1(Node)-Items|Node-Next", .epoch⟩

theorem changes_chained_nodes : ∃ reported,
    (single nodesEntry).checkType (Catalog.nodes Catalog.nodeMembers.tail) {} "Node" =
      .ok (.migrationRequired 0 1 reported) ∧ reported ≠ [] := by
  have hcheck : (single nodesEntry).checkType (Catalog.nodes Catalog.nodeMembers.tail) {} "Node" =
      .ok (.migrationRequired 0 1 (diff nodesEntry.hash "Node-Next")) := by
    rw [checkType, Catalog.fingerprintOf_chained_nodes]
    rfl
  have hlatest : (single nodesEntry).latest? "Node" = some nodesEntry := rfl
  obtain ⟨-, hchanges⟩ := changes_of_migrationRequired (by decide) (by decide) (by decide)
    (by decide) hlatest Catalog.fingerprintOf_nodes hcheck
  exact ⟨_, hcheck, hchanges (by decide) (by decide)⟩

end Registry

/-! ### A member that is gone without a change -/

namespace Catalog

/-- Members of one name, of the given types. -/
def sameNamed (types : List String) : List Member :=
  types.map fun t => ⟨"X", .named t [], false, true, true⟩

/-- A type with members of one name, after the types that they may have. -/
def overloads (types : List String) : Catalog :=
  ⟨[{ name := "A" }, { name := "B" }, { name := "T", members := sameNamed types }],
    List.pairwise_map.mp (show ["A", "B", "T"].Pairwise (· < ·) by decide)⟩

theorem expansion_overloads {types : List String} (h : types = ["A", "B"] ∨ types = ["B"]) :
    (overloads types).expansion {} (.named "T" []) =
      .ok (.composite "T" (types.map fun t => ("X", .bare t))) := by
  let a : Descriptor := ⟨{ name := "A" }, []⟩
  let b : Descriptor := ⟨{ name := "B" }, []⟩
  let top : Descriptor := ⟨{ name := "T", members := sameNamed types }, []⟩
  have ha : a.From (overloads types) := .intro rfl (by simp [a])
  have hb : b.From (overloads types) := .intro rfl (by simp [b])
  have htop : top.From (overloads types) := .intro rfl (by simp [top])
  have hleaf : a.Expands (overloads types) {} (.opened [top]) (.bare "A") :=
    Descriptor.expands_iff.mpr ⟨ha, .leaf rfl rfl⟩
  have hleaf' : b.Expands (overloads types) {} (.opened [top]) (.bare "B") :=
    Descriptor.expands_iff.mpr ⟨hb, .leaf rfl rfl⟩
  have hexpands : top.Expands (overloads types) {} (.opened [])
      (.composite "T" (types.map fun t => ("X", .bare t))) := by
    rcases h with rfl | rfl
    · exact htop.expands_of_members rfl rfl rfl (by decide)
        (.cons ⟨rfl, a, rfl, hleaf⟩ (.cons ⟨rfl, b, rfl, hleaf'⟩ .nil))
    · exact htop.expands_of_members rfl rfl rfl (by decide) (.cons ⟨rfl, b, rfl, hleaf'⟩ .nil)
  exact expansion_eq_ok_iff.mpr ⟨top, rfl, hexpands⟩

/-- A member is gone, but not its name. The migration that is required has no change. -/
theorem migrationRequired_overloads :
    (overloads ["A", "B"]).NamesAvoid ['(', ')', '|', '-'] ∧
      (overloads ["B"]).NamesAvoid ['(', ')', '|', '-'] ∧
      ∃ r, Registry.recordType NameTable.empty .epoch (overloads ["A", "B"]) {} "T" = .ok (r, 0) ∧
        r.checkType (overloads ["B"]) {} "T" = .ok (.migrationRequired 0 1 []) := by
  have h : (overloads ["A", "B"]).fingerprintOf {} "T" = .ok "A-X|B-X" :=
    map_eq_ok_iff.mpr ⟨_, expansion_overloads (.inl rfl), by simp [Expansion.body, Expansion.render,
      Expansion.segments, Expansion.joinSorted, List.mergeSort]⟩
  have h' : (overloads ["B"]).fingerprintOf {} "T" = .ok "B-X" :=
    map_eq_ok_iff.mpr ⟨_, expansion_overloads (.inr rfl), by simp [Expansion.body, Expansion.render,
      Expansion.segments, Expansion.joinSorted]⟩
  have hdiff : diff "A-X|B-X" "B-X" = [] := by decide +kernel
  refine ⟨by decide, by decide,
    Registry.single ⟨"T", 0, "A-X|B-X", Digest.ofText "A-X|B-X", .epoch⟩, ?_, ?_⟩
  · rw [Registry.recordType, h]
    rfl
  · rw [Registry.checkType, h', ← hdiff]
    rfl

end Catalog

end ShapeLedger
