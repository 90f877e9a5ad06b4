import Mathlib.Data.List.Permutation
import TableGraph.Proofs.Plan.Alike

/-!
# What a request can change in a statement

The strings of a request come into a statement as quoted tokens and nothing else: statements of
requests that differ in such strings only are cut into the same tokens but for the contents of the
strings, and every identifier is a name of the database or a label.
-/

namespace TableGraph.Plan

open Sql Postgres

/-- What the identifiers of a statement stand for: the schema of the database, the tables and their
columns, the labels of the plan and the number of the row. -/
inductive Identifies (db : String) (tables : List Table) (labels : List String) : String → Prop
  /-- The schema. -/
  | schema : Identifies db tables labels db
  /-- A table. -/
  | table {t : Table} (h : t ∈ tables) : Identifies db tables labels t.name
  /-- A column of a table. -/
  | column {t : Table} {f : Field} (ht : t ∈ tables) (hf : f ∈ t.fields) :
    Identifies db tables labels f.name
  /-- A column that a reference points to. -/
  | reference {t : Table} {f : Field} {column : String} (ht : t ∈ tables) (hf : f ∈ t.fields)
    (hc : f.fieldRef = some column) : Identifies db tables labels column
  /-- A label of the plan. -/
  | label {l : String} (h : l ∈ labels) : Identifies db tables labels l
  /-- The number of the row. -/
  | row : Identifies db tables labels "$row"

/-- If a root field of a schema can be planned then so can one that is the same but for the strings
that columns are compared with. Both statements are cut into tokens, which are the same but for
these strings: `R` may be any relation that holds of the strings at the same place, and of two empty
ones if anything is compared with the empty one. -/
theorem tokens_of_same (tables : List Table) (schema : Schema) (db name : String) (f : FieldDef)
    (hschema : (Schema.build tables).outcome = .ok schema)
    (hf : Members.get? schema.root name = some f) (R : String → String → Prop)
    (s s' : Selection) (hs : Selection.Same R s s') (p : Plan)
    (hp : ofRoot (dialect db) schema.types.objects f s = .ok p) :
    ∃ p' ts ts', ofRoot (dialect db) schema.types.objects f s' = .ok p'
      ∧ tokens? (p.rowObjects (dialect db)) = some ts
      ∧ tokens? (p'.rowObjects (dialect db)) = some ts'
      ∧ List.Forall₂ (Token.Alike R (Identifies db tables p.labels)) ts ts' := by
  have htables : ∀ t ∈ tables, t.Named (Identifies db tables p.labels) := fun t ht =>
    ⟨.table ht, fun f hf => .column ht hf, fun f hf column hc => .reference ht hf hc⟩
  obtain ⟨hroot, htypes⟩ := Schema.build_named htables hschema
  obtain ⟨p', hp', hsame⟩ := ofRoot_same htypes (hroot _ (Members.mem_of_get? hf)) hs hp
  have hspelt := hsame.rowObjects_alike .schema .row fun label hl => Identifies.label hl
  obtain ⟨ts, ts', hts, hts', halike⟩ := hspelt.tokens
  exact ⟨p', ts, ts', hp', hts, hts', halike⟩

/-- A table whose names have double quotes in them. -/
def quotedTables : List Table := [⟨"CITY", "CI\"TY", [], [.plain "CITY" "na\"me" .string]⟩]

/-- A request for the rows that do not have a text. -/
def rowsWithout (text : String) : Selection :=
  .field "CI__TY" none
    [("where", .obj [("not", .obj [("equals", .obj [("na__me", .str text)])])])]
    [.field "nodes" none [] [.field "na__me" none [] []]]

/-- Requests for texts are the same but for these. -/
theorem rowsWithout_same {R : String → String → Prop} {a b : String} (h : R a b) :
    Selection.Same R (rowsWithout a) (rowsWithout b) := by
  have hequals : Filter.Same R (.obj [("equals", .obj [("na__me", .str a)])])
      (.obj [("equals", .obj [("na__me", .str b)])]) :=
    .object (.compared (by decide) (fun he => absurd he (by decide)) (.cons (.text _ h) .nil) .nil)
  have hfilter : Filter.Same R (.obj [("not", .obj [("equals", .obj [("na__me", .str a)])])])
      (.obj [("not", .obj [("equals", .obj [("na__me", .str b)])])]) :=
    .object (.nested (by decide) hequals .nil)
  have hname : Selection.Same R (.field "na__me" none [] []) (.field "na__me" none [] []) :=
    .field _ _ .nil .nil
  exact .field _ _ (.cons (.filter hfilter) .nil) (.cons (.field _ _ .nil (.cons hname .nil)) .nil)

/-- A text that looks like the end of the statement stays where another text is. -/
theorem tokens_of_rowsWithout :
    ∃ schema f p p' ts ts', (Schema.build quotedTables).outcome = .ok schema
      ∧ Members.get? schema.root "CI__TY" = some f
      ∧ ofRoot (dialect "public") schema.types.objects f (rowsWithout "O'Neil") = .ok p
      ∧ ofRoot (dialect "public") schema.types.objects f (rowsWithout "'); DROP TABLE x; --")
        = .ok p'
      ∧ tokens? (p.rowObjects (dialect "public")) = some ts
      ∧ tokens? (p'.rowObjects (dialect "public")) = some ts'
      ∧ List.Forall₂ (Token.Alike (fun a b => a = "O'Neil" ∧ b = "'); DROP TABLE x; --")
        (Identifies "public" quotedTables p.labels)) ts ts' := by
  have hplanned : ((Schema.built? quotedTables).bind fun schema =>
      (Members.get? schema.root "CI__TY").bind fun f =>
        (ofRoot (dialect "public") schema.types.objects f (rowsWithout "O'Neil")).toOption).isSome
      = true := by cbv
  obtain ⟨p, hp⟩ := Option.isSome_iff_exists.mp hplanned
  obtain ⟨schema, hschema, hp⟩ := Option.bind_eq_some_iff.mp hp
  obtain ⟨f, hf, hp⟩ := Option.bind_eq_some_iff.mp hp
  have hbuild := Schema.build_eq_ok_iff.mpr hschema
  have hroot := toOption_eq_some_iff.mp hp
  obtain ⟨p', ts, ts', hp', hts, hts', halike⟩ := tokens_of_same quotedTables schema "public"
    "CI__TY" f hbuild hf (fun a b => a = "O'Neil" ∧ b = "'); DROP TABLE x; --")
    (rowsWithout "O'Neil") (rowsWithout "'); DROP TABLE x; --") (rowsWithout_same ⟨rfl, rfl⟩) p
    hroot
  exact ⟨schema, f, p, p', ts, ts', hbuild, hf, hroot, hp', hts, hts', halike⟩

end TableGraph.Plan
