-- SUMMARY: Both reports show every finding once, one of them in stable order, and count alike.
import Mathlib.Data.List.Basic
import ShellAudit.Proofs.JsonReading
import ShellAudit.Report.Json

/-!
# What the reports account for

The report for people puts the findings into groups, one for each severity, and shows the groups
one after the other. The report for programs has a counter for the name of each severity, and it
lists the findings as they come. Both run through the findings and change what stands under a key,
so a counter ends at the size of the group with its severity. Every finding is in exactly one group,
so both show the same findings, and the counts add up to their number. Inside a group the order is
kept, so the groups together are what a stable sort gives.
-/

namespace ShellAudit

namespace Finding

/-! ## Groups -/

/-- The findings of a severity, in their order. -/
def group (fs : List Finding) (s : Severity) : List Finding := fs.filter (·.severity = s)

theorem mem_group {fs : List Finding} {s : Severity} {f : Finding} :
    f ∈ group fs s ↔ f ∈ fs ∧ f.severity = s := by
  simp [group]

theorem group_append (fs gs : List Finding) (s : Severity) :
    group (fs ++ gs) s = group fs s ++ group gs s :=
  List.filter_append fs gs

theorem group_cons_self (f : Finding) (fs : List Finding) :
    group (f :: fs) f.severity = f :: group fs f.severity := by
  simp [group]

theorem group_cons_of_ne {f : Finding} {s : Severity} (h : f.severity ≠ s) (fs : List Finding) :
    group (f :: fs) s = group fs s := by
  simp [group, h]

/-- The groups of some severities without repetition hold each finding once, if they hold all. -/
theorem flatMap_group_perm {ss : List Severity} (hss : ss.Nodup) {fs : List Finding}
    (h : ∀ f ∈ fs, f.severity ∈ ss) : (ss.flatMap (group fs)).Perm fs := by
  induction ss generalizing fs with
  | nil =>
    have hnone : fs = [] :=
      List.eq_nil_iff_forall_not_mem.2 fun f hf => absurd (h f hf) List.not_mem_nil
    simp [hnone]
  | cons s ss ih =>
    obtain ⟨hs, hss⟩ := List.nodup_cons.1 hss
    let others := fs.filter fun f => !decide (f.severity = s)
    have hrest : ss.flatMap (group fs) = ss.flatMap (group others) := by
      refine List.flatMap_congr fun t ht => ?_
      have hne : t ≠ s := fun heq => hs (heq ▸ ht)
      simp only [group, others, List.filter_filter]
      refine List.filter_congr fun f _ => ?_
      by_cases hf : f.severity = t <;> simp [hf, hne]
    have hothers : ∀ f ∈ others, f.severity ∈ ss := by
      intro f hf
      obtain ⟨hmem, hne⟩ := List.mem_filter.1 hf
      exact (List.mem_cons.1 (h f hmem)).resolve_left (by simpa using hne)
    rw [List.flatMap_cons, hrest]
    exact ((ih hss hothers).append_left _).trans (List.filter_append_perm _ fs)

/-- Every finding is in the group of one severity. -/
theorem length_group_add (fs : List Finding) :
    (group fs .critical).length + (group fs .high).length + (group fs .medium).length
      + (group fs .low).length = fs.length := by
  have hnodup : Severity.descending.Nodup := by decide
  have hall := (flatMap_group_perm hnodup fun f (_ : f ∈ fs) =>
    Severity.mem_descending f.severity).length_eq
  simpa [Severity.descending, Nat.add_assoc] using hall

end Finding

open Finding

namespace Report

/-! ## Entries that are revised one after the other -/

section Revising

variable {κ α β : Type} [DecidableEq κ]

theorem revise_map (key : κ) (change : α → α) (keys : List κ) (value : κ → α) :
    revise key change (keys.map fun k => (k, value k)) =
      keys.map fun k => (k, if k = key then change (value k) else value k) := by
  rw [revise, List.map_map]
  refine List.map_congr_left fun k _ => ?_
  by_cases hk : k = key <;> simp [hk]

/-- What stands under a key in the end is what those with this key have made of it. -/
theorem foldl_revise (key : β → κ) (change : β → α → α) (keys : List κ) (value : κ → α)
    (xs : List β) :
    xs.foldl (fun entries x => revise (key x) (change x) entries) (keys.map fun k => (k, value k)) =
      keys.map fun k => (k, (xs.filter (key · = k)).foldl (fun a x => change x a) (value k)) := by
  induction xs generalizing value with
  | nil => rfl
  | cons x xs ih =>
    rw [List.foldl_cons, revise_map, ih]
    refine List.map_congr_left fun k _ => ?_
    by_cases hk : k = key x
    · simp [hk]
    · simp [hk, Ne.symm hk]

end Revising

theorem grouped_eq (fs : List Finding) :
    grouped fs = Severity.descending.map fun s => (s, group fs s) := by
  rw [grouped, foldl_revise Finding.severity fun f fs => fs ++ [f]]
  refine List.map_congr_left fun s _ => ?_
  rw [List.foldl_append_eq_append, List.nil_append, ← List.flatMap_def, List.flatMap_singleton']
  rfl

theorem listed_grouped (fs : List Finding) (s : Severity) : listed (grouped fs) s = group fs s := by
  rw [grouped_eq]
  cases s <;> rfl

theorem name_eq_iff {s t : Severity} : s.name = t.name ↔ s = t := by
  refine ⟨fun h => ?_, congrArg Severity.name⟩
  have hsame := congrArg Severity.ofName? h
  rw [Severity.ofName?_name, Severity.ofName?_name] at hsame
  exact Option.some.inj hsame

/-- The counters end at the sizes of the groups. -/
theorem counts_eq (fs : List Finding) :
    counts fs = Severity.descending.map fun s => (s.name, (group fs s).length) := by
  have hlength (gs : List Finding) (n : Nat) : gs.foldl (fun n _ => n + 1) n = n + gs.length := by
    induction gs generalizing n with
    | nil => rfl
    | cons g gs ih =>
      rw [List.foldl_cons, ih, List.length_cons]
      omega
  -- The counters are kept by name, so the keys are the names and not the severities.
  have hkeys : (Severity.descending.map fun s => (s.name, 0)) =
      (Severity.descending.map Severity.name).map fun k => (k, 0) := rfl
  rw [counts, hkeys, foldl_revise (fun f : Finding => f.severity.name) fun _ n => n + 1,
    List.map_map]
  refine List.map_congr_left fun s _ => ?_
  simp only [Function.comp_apply, name_eq_iff, hlength, Nat.zero_add]
  rfl

end Report

/-! ## The order of a stable sort -/

/-- The place of a severity among all, the worst having the first. -/
def Severity.rank : Severity → Nat
  | critical => 0
  | high => 1
  | medium => 2
  | low => 3

namespace Report

/-- Whether a finding may stand before another one when the worst come first. -/
def noBetter (f g : Finding) : Bool := f.severity.rank ≤ g.severity.rank

theorem noBetter_trans (f g k : Finding) (hfg : noBetter f g = true) (hgk : noBetter g k = true) :
    noBetter f k = true := by
  simp only [noBetter, decide_eq_true_eq] at *
  omega

theorem noBetter_total (f g : Finding) : (noBetter f g || noBetter g f) = true := by
  simp only [noBetter, Bool.or_eq_true, decide_eq_true_eq]
  omega

/-- The findings in the order of a stable sort, the worst first. -/
def worstFirst (fs : List Finding) : List Finding := fs.mergeSort noBetter

/-- Sorting keeps the order of the findings of one severity. -/
theorem group_worstFirst (fs : List Finding) (s : Severity) :
    group (worstFirst fs) s = group fs s := by
  have halike : (group fs s).Pairwise fun f g => noBetter f g = true := by
    refine List.pairwise_of_forall_mem_list fun f hf g hg => ?_
    simp [noBetter, (mem_group.1 hf).2, (mem_group.1 hg).2]
  have hkept : (group fs s).Sublist (worstFirst fs) :=
    List.sublist_mergeSort noBetter_trans noBetter_total halike List.filter_sublist
  have hgroups : (group fs s).Sublist (group (worstFirst fs) s) := by
    simpa [group, List.filter_filter] using hkept.filter (·.severity = s)
  have hlength : (group fs s).length = (group (worstFirst fs) s).length :=
    ((List.mergeSort_perm fs noBetter).filter fun f : Finding => f.severity = s).length_eq.symm
  exact (hgroups.eq_of_length hlength).symm

/-- A finding that is no better than those behind it comes first in the groups, since those before
its own are empty. -/
theorem flatMap_group_cons {f : Finding} {fs : List Finding} {ss : List Severity}
    (hss : ss.Pairwise fun s t => s.rank < t.rank) (hmem : f.severity ∈ ss)
    (hworse : ∀ s : Severity, s.rank < f.severity.rank → group fs s = []) :
    ss.flatMap (group (f :: fs)) = f :: ss.flatMap (group fs) := by
  induction ss with
  | nil => cases hmem
  | cons s ss ih =>
    obtain ⟨hfirst, hss⟩ := List.pairwise_cons.1 hss
    rw [List.flatMap_cons, List.flatMap_cons]
    by_cases hs : f.severity = s
    · have hrest : ss.flatMap (group (f :: fs)) = ss.flatMap (group fs) := by
        refine List.flatMap_congr fun t ht => group_cons_of_ne (fun heq => ?_) fs
        have hlt := hfirst t ht
        rw [← hs, heq] at hlt
        omega
      rw [hrest, ← hs, group_cons_self, List.cons_append]
    · have hmem := (List.mem_cons.1 hmem).resolve_left hs
      rw [group_cons_of_ne hs, hworse s (hfirst _ hmem), ih hss hmem]
      rfl

theorem bySeverity_grouped (fs : List Finding) :
    bySeverity (grouped fs) = Severity.descending.flatMap (group fs) := by
  rw [bySeverity, funext (listed_grouped fs)]

/-- Findings that are sorted are their groups, one after the other. -/
theorem flatMap_group_of_sorted {fs : List Finding}
    (h : fs.Pairwise fun f g => noBetter f g = true) :
    Severity.descending.flatMap (group fs) = fs := by
  induction fs with
  | nil => rfl
  | cons f fs ih =>
    obtain ⟨hfirst, hsorted⟩ := List.pairwise_cons.1 h
    have hworse : ∀ s : Severity, s.rank < f.severity.rank → group fs s = [] := by
      intro s hs
      refine List.eq_nil_iff_forall_not_mem.2 fun g hg => ?_
      obtain ⟨hmem, rfl⟩ := mem_group.1 hg
      have hle := hfirst g hmem
      simp only [noBetter, decide_eq_true_eq] at hle
      omega
    have hdescending : Severity.descending.Pairwise fun s t => s.rank < t.rank := by decide
    rw [flatMap_group_cons hdescending (Severity.mem_descending f.severity) hworse, ih hsorted]

/-- The groups, one after the other, are what a stable sort gives. -/
theorem bySeverity_eq_worstFirst (fs : List Finding) : bySeverity (grouped fs) = worstFirst fs :=
  calc bySeverity (grouped fs)
    _ = Severity.descending.flatMap (group (worstFirst fs)) := by
      rw [bySeverity_grouped, funext (group_worstFirst fs)]
    _ = worstFirst fs :=
      flatMap_group_of_sorted (List.pairwise_mergeSort noBetter_trans noBetter_total fs)

/-! ## What a report owes to a finding -/

/-- Some lines tell of a finding under a number: they start with the number, the category, the
severity and the line of the finding, its description stands in one of them, and its content, its
recommendation and its references have lines of their own. -/
structure Tells (number : Nat) (f : Finding) (lines : List String) : Prop where
  head : ∃ colour, lines[0]? = some (colour ++ "[" ++ toString number ++ "] " ++ f.category.name
    ++ " (" ++ f.severity.name ++ ")" ++ Colour.reset)
  line : lines[1]? = some ("Line " ++ toString f.line ++ ":")
  description : ∃ line ∈ lines, f.description.toList <:+: line.toList
  content : ∀ s, given? f.content = some s → s ∈ lines
  recommendation : ∀ s, given? f.recommendation = some s → "Recommendation: " ++ s ∈ lines
  references : ∀ s ∈ f.references, "  - " ++ s ∈ lines

theorem mem_details_of_mem_body {number : Nat} {f : Finding} {line : String}
    (h : line ∈ body f) : line ∈ details number f := by
  simp [details, h]

theorem tells_details (number : Nat) (f : Finding) : Tells number f (details number f) where
  head := ⟨colour f.severity, rfl⟩
  line := rfl
  description := by
    have hshown : ∃ line ∈ body f, f.description.toList <:+: line.toList := by
      unfold body
      split
      · refine ⟨pointer f, by simp, ?_⟩
        simp only [pointer, String.toList_append]
        exact List.infix_append _ _ _
      · refine ⟨"Description: " ++ f.description, by simp, ?_⟩
        rw [String.toList_append]
        exact (List.suffix_append _ _).isInfix
    obtain ⟨line, hline, hinfix⟩ := hshown
    exact ⟨line, mem_details_of_mem_body hline, hinfix⟩
  content s hs := mem_details_of_mem_body (by simp [body, hs])
  recommendation s hs := mem_details_of_mem_body (by simp [body, hs])
  references s hs := by
    have hne : f.references ≠ [] := List.ne_nil_of_mem hs
    exact mem_details_of_mem_body (by simp [body, hne, hs])

/-- The details are those of each finding under its number. -/
theorem detailsFrom_eq_flatten (number : Nat) (fs : List Finding) :
    detailsFrom number fs = ((fs.zipIdx number).map fun p => details p.2 p.1).flatten := by
  induction fs generalizing number with
  | nil => rfl
  | cons f fs ih => rw [detailsFrom, ih, List.zipIdx_cons, List.map_cons, List.flatten_cons]

/-- The member of an object with a given key. -/
def member? (key : String) : Document → Option Document
  | .object members => members.lookup key
  | _ => none

/-- A document shows a finding: its category, severity, description, file and line, and all that is
known of it beyond that. -/
structure Shows (f : Finding) (item : Document) : Prop where
  category : member? "type" item = some (.text f.category.name)
  severity : member? "severity" item = some (.text f.severity.name)
  description : member? "description" item = some (.text f.description)
  file : (member? "location" item).bind (member? "file") = some (.text (fileName f.file))
  line : (member? "location" item).bind (member? "line") = some (.number f.line)
  column : (member? "location" item).bind (member? "column") =
    (f.column.filter (· ≠ 0)).map .number
  code : member? "code" item = (given? f.content).map .text
  recommendation : member? "recommendation" item = (given? f.recommendation).map .text
  references : member? "references" item =
    if f.references = [] then none else some (.list (f.references.map .text))
  metadata : member? "metadata" item =
    if f.metadata = [] then none else some (.object (f.metadata.map fun m => (m.1, m.2.document)))

/-- The member with a key, if there is a document for it. -/
def optional (key : String) (d : Option Document) : List (String × Document) :=
  (d.map fun d => (key, d)).toList

theorem lookup_optional (key key' : String) (d : Option Document) :
    (optional key d).lookup key' = if key' = key then d else none := by
  cases d with
  | none => exact (ite_self none).symm
  | some d =>
    by_cases hkey : key' = key
    · simp [optional, hkey]
    · simp [optional, List.lookup_cons, hkey, beq_eq_false_iff_ne.2 hkey]

theorem document_location (f : Finding) :
    (location f).document = .object (
      [("file", .text (fileName f.file)), ("line", .number f.line)]
        ++ optional "column" ((f.column.filter (· ≠ 0)).map .number)) := by
  unfold location
  cases f.column with
  | none => rfl
  | some c =>
    by_cases hc : c = 0
    · simp [hc, optional, Json.document, Json.memberDocuments]
    · simp [hc, optional, Json.document, Json.memberDocuments, Option.filter_some]

theorem document_item (f : Finding) :
    (item f).document = .object (
      [("type", .text f.category.name),
        ("severity", .text f.severity.name),
        ("description", .text f.description),
        ("location", (location f).document)]
        ++ optional "code" ((given? f.content).map .text)
        ++ optional "recommendation" ((given? f.recommendation).map .text)
        ++ optional "references"
          (if f.references = [] then none else some (.list (f.references.map .text)))
        ++ optional "metadata" (if f.metadata = [] then none
          else some (.object (f.metadata.map fun m => (m.1, m.2.document))))) := by
  have htext (key : String) (s : Option String) :
      Json.memberDocuments (s.map fun s => (key, .text s)).toList =
        optional key (s.map .text) := by
    cases s <;> rfl
  have hreferences : Json.memberDocuments
      (if f.references.isEmpty then [] else [("references", .list (f.references.map .text))]) =
        optional "references"
          (if f.references = [] then none else some (.list (f.references.map .text))) := by
    by_cases h : f.references = []
    · simp [h, optional, Json.memberDocuments]
    · simp [h, optional, Json.memberDocuments, Json.document, Json.documents_eq_map,
        Function.comp_def]
  have hmetadata : Json.memberDocuments
      (if f.metadata.isEmpty then [] else [("metadata", .object f.metadata)]) =
        optional "metadata" (if f.metadata = [] then none
          else some (.object (f.metadata.map fun m => (m.1, m.2.document)))) := by
    by_cases h : f.metadata = []
    · simp [h, optional, Json.memberDocuments]
    · simp [h, optional, Json.document, Json.memberDocuments_eq_map]
  rw [item, Json.document, ← htext, ← htext, ← hreferences, ← hmetadata]
  simp only [Json.memberDocuments_eq_map, List.map_append]
  rfl

theorem shows_item (f : Finding) : Shows f (item f).document := by
  rw [document_item]
  constructor <;>
    simp [member?, document_location, List.lookup_append, List.lookup_cons, lookup_optional]

/-! ## Both reports -/

/-- The lines before the details that tell a total and the count of each severity. -/
def opening (file : Option String) (total : Nat) (counts : Severity → Nat) : List String :=
  ["BashGuard Security Analysis Report",
    "========================================",
    "",
    "File: " ++ fileName file,
    "",
    "Total vulnerabilities found: " ++ toString total,
    "Critical: " ++ toString (counts .critical),
    "High: " ++ toString (counts .high),
    "Medium: " ++ toString (counts .medium),
    "Low: " ++ toString (counts .low),
    ""]

/-- The document that holds a total, the count of each severity and some items. -/
def account (total : Nat) (counts : Severity → Nat) (items : List Document) : Document :=
  .object
    [("summary", .object
        [("total", .number total),
          ("by_severity", .object
            [("CRITICAL", .number (counts .critical)),
              ("HIGH", .number (counts .high)),
              ("MEDIUM", .number (counts .medium)),
              ("LOW", .number (counts .low))])]),
      ("vulnerabilities", .list items)]

theorem text_eq (file : Option String) {fs : List Finding} (hne : fs ≠ []) :
    text file fs = "\n".intercalate
      (opening file fs.length (fun s => (group fs s).length)
        ++ (((worstFirst fs).zipIdx 1).map fun p => details p.2 p.1).flatten) := by
  have hsummary : summary file fs.length (grouped fs) =
      opening file fs.length fun s => (group fs s).length := by
    simp only [summary, opening, listed_grouped]
  rw [← hsummary, ← bySeverity_eq_worstFirst, ← detailsFrom_eq_flatten]
  exact if_neg (by simpa using hne)

theorem document_value (fs : List Finding) :
    (value fs).document = account fs.length (fun s => (group fs s).length)
      (fs.map fun f => (item f).document) := by
  rw [value, counts_eq]
  simp only [Json.document, Json.memberDocuments, Json.documents_eq_map, List.map_map]
  rfl

/-- Both reports on some findings tell one total and one count for each severity, and show the
findings. The report for people gives each of them, in the order of a stable sort with the worst
first, a number from one on and the lines that tell of it. The report for programs is a text from
which a document is read that has an item for each of them, in their own order. The counts are those
of the severities and add up to the total, which is the number of the findings. -/
theorem reports_account_for_findings (file : Option String) {fs : List Finding} (hne : fs ≠ []) :
    ∃ (total : Nat) (counts : Severity → Nat) (blocks : List (List String)) (report : String)
      (items : List Document),
      write "text" file fs = .ok ("\n".intercalate (opening file total counts ++ blocks.flatten)) ∧
      write "json" file fs = .ok report ∧
      Json.read? report = some (account total counts items) ∧
      (worstFirst fs).Perm fs ∧
      blocks = ((worstFirst fs).zipIdx 1).map (fun p => details p.2 p.1) ∧
      (∀ number f, Tells number f (details number f)) ∧
      List.Forall₂ Shows fs items ∧
      total = fs.length ∧ (∀ s, counts s = fs.countP (·.severity = s)) ∧
      counts .critical + counts .high + counts .medium + counts .low = total := by
  refine ⟨fs.length, fun s => (group fs s).length, _, json fs, fs.map fun f => (item f).document,
    ?_, ?_, ?_, List.mergeSort_perm fs noBetter, rfl, tells_details, ?_, rfl,
    fun s => List.countP_eq_length_filter.symm, length_group_add fs⟩
  · rw [write, if_pos rfl, text_eq file hne]
  · rw [write, if_neg (by decide), if_pos rfl]
  · rw [json, Json.read?_render, document_value]
  · exact List.forall₂_map_right_iff.2 (List.forall₂_same.2 fun f _ => shows_item f)

/-- Findings of three severities, two of them of one. -/
def unsortedFindings : List Finding :=
  [{ category := .other, severity := .low, description := "a", line := 4 },
    { category := .commandInjection, severity := .critical, description := "b", line := 2,
      column := some 6, content := some "eval $x" },
    { category := .lint, severity := .low, description := "c", line := 3 },
    { category := .variableExpansion, severity := .medium, description := "d", line := 1 }]

/-- The critical finding comes first for people and second for programs, and the two of low severity
stay in their order. -/
theorem reports_account_for_unsortedFindings :
    unsortedFindings ≠ [] ∧
      (worstFirst unsortedFindings).map (·.description) = ["b", "d", "a", "c"] ∧
      ∃ (total : Nat) (counts : Severity → Nat) (blocks : List (List String)) (report : String)
        (items : List Document),
        write "text" none unsortedFindings =
          .ok ("\n".intercalate (opening none total counts ++ blocks.flatten)) ∧
        write "json" none unsortedFindings = .ok report ∧
        Json.read? report = some (account total counts items) ∧
        items.map (member? "description") =
          [some (.text "a"), some (.text "b"), some (.text "c"), some (.text "d")] ∧
        blocks.length = 4 ∧ total = 4 ∧
        counts .critical = 1 ∧ counts .high = 0 ∧ counts .medium = 1 ∧ counts .low = 2 := by
  have hne : unsortedFindings ≠ [] := by simp [unsortedFindings]
  refine ⟨hne, by rw [← bySeverity_eq_worstFirst]; rfl, ?_⟩
  obtain ⟨total, counts, blocks, report, items, htext, hjson, hread, hperm, hblocks, -, hitems,
    htotal, hcounts, -⟩ := reports_account_for_findings none hne
  have hdescriptions : items.map (member? "description") =
      unsortedFindings.map fun f => some (.text f.description) := by
    rw [← List.forall₂_eq_eq_eq, List.forall₂_map_left_iff, List.forall₂_map_right_iff]
    exact (hitems.imp fun _ _ h => h.description).flip
  have hlength : blocks.length = unsortedFindings.length := by
    rw [hblocks, List.length_map, List.length_zipIdx, hperm.length_eq]
  exact ⟨total, counts, blocks, report, items, htext, hjson, hread, hdescriptions, hlength, htotal,
    hcounts _, hcounts _, hcounts _, hcounts _⟩

end Report

end ShellAudit
