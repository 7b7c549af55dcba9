import Deadwood.Verdict.Store
import Deadwood.Proofs.Disclosing
import Deadwood.Proofs.Documents

/-!
# Stored reports

A report that was written to a file is loaded from it as the part of the report that the filter let
through, with the metadata as they were (`saved_report_loads`). The value of a report is taken apart
again member by member (`Record.ofValue_toValue`, `Report.ofValue_toValue`), its document is one
that can be read back (`storable_toValue`), and a file that was written leads to what was written
(`Disk.readText_of_writeText`): nothing that stands on the way to it has changed, as a file is never
written where a directory stands.
-/

set_option autoImplicit false

namespace Deadwood

open List

/-! ## Files -/

namespace Disk

variable {disk later : Disk} {place target : Place} {path : Path} {node : Node}

/-- Something new where no directory stands leaves all ways as they are. -/
theorem locate_put (hfree : disk.at? place ≠ some .directory)
    (h : disk.locate path = .ok target) : (disk.put place node).locate path = .ok target := by
  have hhere : (disk.put place node).here = disk.here := rfl
  exact locate_of_directories hhere (fun _ => at?_put_directory hfree node)
    (.inr ⟨target, rfl⟩) h

/-- What was written to a file is read from it. -/
theorem read_of_write {bytes : List UInt8} (h : disk.write path bytes = .ok later) :
    later.read path = .ok bytes := by
  obtain ⟨place, hlocate, hfree, rfl⟩ := write_eq_ok h
  have hat := at?_put_of_free hfree (.file bytes) place
  rw [if_pos rfl] at hat
  rw [read, locate_put hfree hlocate]
  simp only [hat]

theorem unifyLineEnds_eq_self {text : List Char} (h : '\r' ∉ text) :
    Text.unifyLineEnds text = text := by
  fun_induction Text.unifyLineEnds text with
  | case1 => rfl
  | case2 cs ih => exact absurd mem_cons_self h
  | case3 c cs _ ih =>
    rw [mem_cons, not_or] at h
    rw [ih h.2, if_neg (Ne.symm h.1)]

theorem return_notMem_unifyLineEnds (text : List Char) : '\r' ∉ Text.unifyLineEnds text := by
  fun_induction Text.unifyLineEnds text with
  | case1 => exact not_mem_nil
  | case2 cs ih => simpa using ih
  | case3 c cs _ ih =>
    rw [mem_cons, not_or]
    refine ⟨?_, ih⟩
    split
    · decide
    · exact fun heq => absurd heq.symm ‹_›

/-- A text in the characters of documents is read from the file that it was written to. -/
theorem readText_of_writeText {text : List Char} (htext : Json.IsPlain text)
    (h : disk.writeText path text = .ok later) : later.readText path = .ok text := by
  have hreturn : '\r' ∉ text := by
    intro hmem
    rcases htext '\r' hmem with h | h
    · exact absurd h (by decide)
    · exact absurd h.1 (by decide)
  rw [readText, read_of_write h]
  simp only [Text.Utf8.decode_encode_of_isAscii htext.isAscii, unifyLineEnds_eq_self hreturn]

end Disk

/-! ## Values of records and reports -/

theorem Reason.ofValue_word (reason : Reason) : ofValue (.text reason.word) = .ok reason := by
  cases reason <;> rfl

theorem Status.ofValue_word (status : Status) : ofValue (.text status.word) = .ok status := by
  cases status <;> rfl

/-- A record is what its value stands for. -/
theorem Record.ofValue_toValue (record : Record Value) : ofValue record.toValue = .ok record := by
  have hpath : record.toValue.need "path" = .ok record.path := rfl
  have hwords : elementsOf record.toValue "reasons" =
      .ok (record.reasons.map fun reason => .text reason.word) := by
    simp [elementsOf, toValue, Value.get, Value.texts, lookup_cons, Function.comp_def,
      bind, Except.bind, Value.elements]
  have hreasons : (record.reasons.map fun reason => Value.text reason.word).mapM Reason.ofValue =
      .ok record.reasons := mapM_map_eq_ok fun reason _ => reason.ofValue_word
  have hcounts : elementsOf record.toValue "exportRefs" = .ok (record.exportRefs.map fun ref =>
      .table [("export", ref.name), ("refs", .int ref.refs)]) := rfl
  have hrefs : (record.exportRefs.map fun ref =>
      Value.table [("export", ref.name), ("refs", .int ref.refs)]).mapM exportRefOf =
      .ok record.exportRefs := mapM_map_eq_ok fun ref _ => rfl
  have himporters : elementsOf record.toValue "importers" = .ok record.importers := rfl
  have hnotes : elementsOf record.toValue "notes" = .ok record.notes := by
    cases hnotes : record.notes <;> simp [elementsOf, toValue, Value.get, hnotes] <;> rfl
  have hstatus : record.toValue.get "status" .null = .ok (.text record.status.word) := rfl
  simp only [ofValue, hpath, hwords, hreasons, hcounts, hrefs, himporters, hnotes, hstatus,
    Status.ofValue_word, bind, Except.bind, pure, Except.pure]
  exact if_pos trivial

namespace Report

variable {report : Report Value} {filter : Filter}

theorem metadataOf_metadataValue {metadata : Metadata} (h : metadata.analyzedAt.IsProper)
    (filter : Filter) : metadataOf (metadataValue metadata filter) = .ok metadata := by
  have hstamp := Stamp.read_write h
  have hneed : (metadataValue metadata filter).need "analyzed_at" =
      .ok (.text metadata.analyzedAt.write) := rfl
  simp only [metadataOf, hneed, Value.asText, bind, Except.bind, hstamp, Except.mapError]
  rfl

/-- The report that the value of a report stands for has the records that the filter lets
through. -/
theorem ofValue_toValue (h : ∀ metadata ∈ report.metadata, metadata.analyzedAt.IsProper)
    (filter : Filter) :
    ofValue (report.toValue filter) = .ok ⟨report.view filter, report.metadata⟩ := by
  have hrecords : ((report.view filter).map Record.toValue).mapM Record.ofValue =
      .ok (report.view filter) := mapM_map_eq_ok fun record _ => record.ofValue_toValue
  have hfiles : Record.elementsOf (report.toValue filter) "files" =
      .ok ((report.view filter).map Record.toValue) := by
    rw [toValue]
    cases report.metadata <;> rfl
  cases hmetadata : report.metadata with
  | none =>
    have hnone : (report.toValue filter).get "metadata" .null = .ok .null := by
      rw [toValue, hmetadata]
      rfl
    simp only [ofValue, hnone, hfiles, hrecords, bind, Except.bind]
    rfl
  | some metadata =>
    have hsome : (report.toValue filter).get "metadata" .null =
        .ok (metadataValue metadata filter) := by
      rw [toValue, hmetadata]
      rfl
    have hset : (metadataValue metadata filter).isSet := rfl
    simp only [ofValue, hsome, hfiles, hrecords, hset, if_true, bind, Except.bind,
      metadataOf_metadataValue (h metadata hmetadata) filter]
    rfl

/-! ## Reports that can be stored -/

/-- How deeply the names of a record may be nested: lists and tables stand in each other up to five
times around the name of an export. -/
def nameDepth : Nat := Json.maxNesting - 5

/-- The record can be stored: its names and the counts of its exports can be read back. -/
structure IsStorableRecord (record : Record Value) : Prop where
  path : Json.Storable nameDepth record.path
  importers : ∀ name ∈ record.importers, Json.Storable nameDepth name
  notes : ∀ name ∈ record.notes, Json.Storable nameDepth name
  exports : ∀ ref ∈ record.exportRefs, Json.Storable nameDepth ref.name
  refs : ∀ ref ∈ record.exportRefs, Number.IsShort ref.refs.natAbs

/-- The metadata can be stored: they were taken at a proper time, and the values in them can be read
back. -/
structure IsStorableMetadata (metadata : Metadata) : Prop where
  project : Json.Storable nameDepth metadata.project
  analyzedAt : metadata.analyzedAt.IsProper
  version : Json.Storable nameDepth metadata.version
  durationMs : Json.Storable nameDepth metadata.durationMs
  aliasSource : Json.Storable nameDepth metadata.aliasSource

/-- The report can be stored: its records and its metadata can, and the number of its records is one
that can be read. -/
structure IsStorable (report : Report Value) : Prop where
  records : ∀ record ∈ report.records, IsStorableRecord record
  metadata : ∀ metadata ∈ report.metadata, IsStorableMetadata metadata
  count : Number.IsShort report.records.length

theorem storable_record {record : Record Value} (h : IsStorableRecord record) :
    Json.Storable (nameDepth + 3) record.toValue := by
  have hnames : ∀ {names : List Value}, (∀ name ∈ names, Json.Storable nameDepth name) →
      Json.Storable (nameDepth + 2) (.list names) :=
    fun hnames => .list fun name hname => (hnames name hname).mono (by omega)
  have hreasons : Json.Storable (nameDepth + 2) (.texts (record.reasons.map Reason.word)) := by
    refine .list fun v hv => ?_
    obtain ⟨word, -, rfl⟩ := mem_map.1 hv
    exact .text word
  have hrefs : Json.Storable (nameDepth + 2) (.list (record.exportRefs.map fun ref =>
      .table [("export", ref.name), ("refs", .int ref.refs)])) := by
    refine .list fun v hv => ?_
    obtain ⟨ref, href, rfl⟩ := mem_map.1 hv
    refine .table (by simp) fun m hm => ?_
    simp only [mem_cons, not_mem_nil, or_false] at hm
    rcases hm with rfl | rfl
    · exact h.exports ref href
    · exact .int (h.refs ref href)
  refine .table ?_ fun m hm => ?_
  · split <;> simp
  · rw [mem_append] at hm
    rcases hm with hm | hm
    · simp only [mem_cons, not_mem_nil, or_false] at hm
      rcases hm with rfl | rfl | rfl | rfl | rfl
      · exact h.path.mono (by omega)
      · exact .text _
      · exact hreasons
      · exact hrefs
      · exact hnames h.importers
    · split at hm
      · cases hm
      · obtain rfl := mem_singleton.1 hm
        exact hnames h.notes

theorem storable_metadataValue {metadata : Metadata} (h : IsStorableMetadata metadata)
    (filter : Filter) : Json.Storable (nameDepth + 1) (metadataValue metadata filter) := by
  refine .table (by simp) fun m hm => ?_
  simp only [mem_cons, not_mem_nil, or_false] at hm
  rcases hm with rfl | rfl | rfl | rfl | rfl | rfl
  · exact h.project
  · exact .text _
  · exact h.version
  · exact h.durationMs
  · exact h.aliasSource
  · exact .text _

theorem storable_summaryValue (h : Number.IsShort report.records.length) :
    Json.Storable 1 (summaryValue report.summary) := by
  have hkept : (report.view (.only .keep)).length ≤ report.records.length :=
    length_filter_le _ _
  have hcount : ∀ {n : Nat}, n ≤ report.records.length → Json.Storable 0 (.nat n) :=
    fun hn => .int (h.of_le hn)
  refine .table (by simp) fun m hm => ?_
  simp only [mem_cons, not_mem_nil, or_false] at hm
  rcases hm with rfl | rfl | rfl
  · exact hcount (Nat.le_refl _)
  · exact hcount hkept
  · exact hcount (Nat.sub_le _ _)

theorem storable_toValue (h : report.IsStorable) (filter : Filter) :
    Json.Storable Json.maxNesting (report.toValue filter) := by
  have hfiles :
      Json.Storable (nameDepth + 4) (.list ((report.view filter).map Record.toValue)) := by
    refine .list fun v hv => ?_
    obtain ⟨record, hrecord, rfl⟩ := mem_map.1 hv
    exact storable_record (h.records record (mem_of_mem_filter hrecord))
  show Json.Storable (nameDepth + 4 + 1) _
  refine .table ?_ fun m hm => ?_
  · cases report.metadata <;> simp
  · rw [mem_append] at hm
    rcases hm with hm | hm
    · obtain ⟨metadata, hmetadata, rfl⟩ := Option.map_eq_some_iff.1 (Option.mem_toList.1 hm)
      exact (storable_metadataValue (h.metadata metadata hmetadata) filter).mono (by omega)
    · simp only [mem_cons, not_mem_nil, or_false] at hm
      rcases hm with rfl | rfl
      · exact (storable_summaryValue h.count).mono (by omega)
      · exact hfiles

/-- A report of texts can be stored if its counts can be read back and its metadata can be
stored. -/
theorem isStorable_map_text {report : Report String}
    (hrefs : ∀ record ∈ report.records, ∀ ref ∈ record.exportRefs, Number.IsShort ref.refs.natAbs)
    (hmetadata : ∀ metadata ∈ report.metadata, IsStorableMetadata metadata)
    (hcount : Number.IsShort report.records.length) : (report.map .text).IsStorable := by
  refine ⟨fun record hrecord => ?_, hmetadata, by rwa [map, length_map]⟩
  obtain ⟨named, hnamed, rfl⟩ := mem_map.1 hrecord
  have htexts : ∀ {names : List String}, ∀ v ∈ names.map Value.text, Json.Storable nameDepth v := by
    intro names v hv
    obtain ⟨name, -, rfl⟩ := mem_map.1 hv
    exact .text name
  refine ⟨.text _, htexts, htexts, fun ref href => ?_, fun ref href => ?_⟩
  · obtain ⟨named, -, rfl⟩ := mem_map.1 href
    exact .text _
  · obtain ⟨counted, hcounted, rfl⟩ := mem_map.1 href
    exact hrefs named hnamed counted hcounted

/-- A report that was written under a filter is loaded with exactly the records that the filter lets
through, in their order and as they were, and with the metadata as they were. -/
theorem saved_report_loads {path : Path} {disk later : Disk} (h : report.IsStorable)
    (hsave : (report.save path filter).run disk = (.ok (), later)) :
    load later path = .ok ⟨report.view filter, report.metadata⟩ := by
  obtain ⟨_, opened, -, hwrite⟩ := Trim.run_bind_eq_ok_iff.1 hsave
  have hstorable := storable_toValue h filter
  have hplain : Json.IsPlain (report.render filter ++ ['\n']) :=
    Json.isPlain_append.2 ⟨hstorable.isPlain_writeAt 0, by decide⟩
  have htext := Disk.readText_of_writeText hplain (Trim.run_change_eq_ok_iff.1 hwrite)
  have hread : Json.read (report.render filter ++ ['\n']) = .ok (report.toValue filter) :=
    Json.read_write hstorable (Nat.le_refl _) rfl
  have hvalue := ofValue_toValue (fun metadata hm => (h.metadata metadata hm).analyzedAt) filter
  rw [load, htext]
  simp only [hread, hvalue]

/-- A report of three records, one of them to be kept, with metadata. -/
def threeRecords : Report String where
  records := [
    ⟨"app/[id]/page.tsx", [.routeConvention], [⟨"default", 0⟩], [], []⟩,
    ⟨"src/b.ts", [], [⟨"bee", 0⟩], ["src/ü.ts"], []⟩,
    ⟨"src/a.ts", [], [], [], ["parse failed,\nclassified by path \"a\""]⟩]
  metadata := some ⟨.text "demo", ⟨2026, 1, 2, 3, 4, 5, 0, none⟩, .text "0.3.0", .int 12, .null⟩

/-- The two records that are dropped, and the metadata, are loaded from a file in a directory that
did not exist. -/
theorem saved_report_loads_threeRecords : ∃ later,
    ((threeRecords.map .text).save (Path.ofString "out/report.json") (.only .drop)).run {} =
      (.ok (), later) ∧ (load later (Path.ofString "out/report.json")).map Report.records =
      .ok ((threeRecords.records.drop 1).map (Record.map .text)) := by
  have hshort : Number.IsShort 12 := by rw [Number.IsShort]; decide
  have hcounts : ∀ record ∈ threeRecords.records, ∀ ref ∈ record.exportRefs,
      ref.refs.natAbs ≤ 12 := by decide
  have hstorable : (threeRecords.map .text).IsStorable := by
    refine isStorable_map_text (fun record hrecord ref href =>
      hshort.of_le (hcounts record hrecord ref href)) ?_ (hshort.of_le (by decide))
    intro metadata hmetadata
    cases hmetadata
    exact ⟨.text _, ⟨by decide, by decide, by simp⟩, .text _, .int hshort, .null⟩
  obtain ⟨_, hsaved, -⟩ := exists_ok_of_any
    (x := (((threeRecords.map .text).save (Path.ofString "out/report.json")
      (.only .drop)).run {}).1) (p := fun _ => true) (by decide +kernel)
  refine ⟨_, Prod.ext hsaved rfl, ?_⟩
  rw [saved_report_loads hstorable (Prod.ext hsaved rfl)]
  rfl

end Report

end Deadwood
