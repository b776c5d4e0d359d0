import ViewMaintenance.Proofs.Engine.Inspection
import ViewMaintenance.Proofs.Engine.Run
import ViewMaintenance.Proofs.Store.BrokenScan

namespace ViewMaintenance

namespace Engine

/-- A deletion whose scan breaks is refused with the first error, and nothing is written. -/
theorem commit_of_broken_scan {base : BaseReader} {m : Mutation} {partition : Bytes}
    {range : ClusteringRange} {x : Deletion} (hm : m.scan? = some (partition, range, x))
    {items : List RowResult} (hscan : base.scan partition range = .ok items) {err : StoreError}
    (herr : items.mapM id = .error err) (e : Engine) (f : Faults) (s : Store) (now : Timestamp) :
    commit f m s (e.updates base m now) = (.error (.store err), s) := by
  have hdeletion : e.deletionUpdates base partition range x now = .error (.store err) := by
    simp only [deletionUpdates, hscan, herr, Except.mapError, bind, Except.bind]
  have hupdates : e.updates base m now = .error (.store err) := by
    cases m with
    | row fragment => cases hm
    | deleteRange =>
      cases hm
      rw [updates, hdeletion]
      rfl
    | deletePartition =>
      cases hm
      rw [updates, hdeletion]
      rfl
  rw [hupdates]
  rfl

/-- A deletion is refused if the scan of the base table breaks, after however many rows. -/
theorem apply_of_scanBreak {s : Store} (hs : s.Reachable) {f : Faults} (hstart : f.scan = none)
    {n : Nat} {err : StoreError} (hbreak : f.scanBreak = some (n, err)) {m : Mutation}
    (hm : m.scan?.isSome) (e : Engine) (now : Timestamp) :
    e.apply f m now s = (.error (.store err), s) := by
  obtain ⟨⟨partition, range, x⟩, hm⟩ := Option.isSome_iff_exists.mp hm
  obtain ⟨h, hbase⟩ := hs.base.exists_represents
  obtain ⟨rows, hrows, _⟩ := hbase.scan partition range
  have hscan : (f.reader s.base.reader).scan partition range =
      .ok ((rows.take n).map .ok ++ [.error err]) := by
    change Faults.call f.scan ((s.base.scan partition range).map f.cut) = _
    rw [hstart, hrows, List.map_take]
    simp only [Faults.call, Except.map, Faults.cut, hbreak]
  have herrors : Scan.errors ((rows.take n).map .ok ++ [.error err]) = [err] := by
    rw [Scan.errors_append, Scan.errors_map_ok]
    rfl
  refine commit_of_broken_scan hm hscan (Scan.mapM_id_eq_error_iff.mpr ?_) e f s now
  rw [herrors]
  rfl

/-- A broken scan is never silently shortened. Whichever stream the merge takes from next, every
    error of a level comes out, and the rows of a key are together what all levels hold of it. So
    the scan can be collected only if no level failed, and a deletion over a scan that failed
    reaches neither the views nor the base table. -/
theorem broken_scan {sources : List Source} {partition : Bytes} {range : ClusteringRange}
    {opened : List (Covering × List RowResult)}
    (hopen : sources.mapM (Compaction.open? partition range) = .ok opened)
    {merge : List (List RowResult) → List RowResult}
    (hmerge : Scan.Interleaves (opened.map (·.2)) (merge (opened.map (·.2)))) :
    ∃ out, Compaction.scanBy merge sources partition range = .ok out ∧
      Scan.Keeps (opened.map (·.2)) (merge (opened.map (·.2)))
        ((opened.map (·.1)).foldl Covering.union .empty) out ∧
      ∀ (base : BaseReader) (m : Mutation) (x : Deletion),
        m.scan? = some (partition, range, x) →
        base.scan partition range = Compaction.scanBy merge sources partition range →
        (∃ items ∈ opened.map (·.2), ∃ err, .error err ∈ items) →
        ∃ err, (Scan.errors (merge (opened.map (·.2)))).head? = some err ∧
          ∀ (e : Engine) (f : Faults) (s : Store) (now : Timestamp),
            commit f m s (e.updates base m now) = (.error (.store err), s) := by
  have hkeeps := Scan.keeps_of_interleaves hmerge ((opened.map (·.1)).foldl Covering.union .empty)
  have hscan : Compaction.scanBy merge sources partition range = .ok (Scan.shadowed
      ((opened.map (·.1)).foldl Covering.union .empty)
      (Scan.coalesce RowResult.join? (merge (opened.map (·.2))))) := by
    rw [Compaction.scanBy, hopen]
    rfl
  refine ⟨_, hscan, hkeeps, fun base m x hm hbase hbroken => ?_⟩
  obtain ⟨err, herr⟩ := hkeeps.fails_iff.mpr hbroken
  exact ⟨err, (hkeeps.fails_with err).mp herr, commit_of_broken_scan hm (hbase.trans hscan) herr⟩

section Orders

/-- A level that a scan gets a range deletion and some items from. -/
def failingLevel (deletion : Deletion) (items : List RowResult) : Source where
  covering _ := .ok ⟨none, [⟨⟨.included [2], .unbounded⟩, deletion⟩]⟩
  fragment? _ := .ok none
  fragments _ _ := .ok items

/-- What a level holds of an order: one column. -/
def orderColumn (number : UInt8) (column : String) (timestamp : Timestamp) : RowResult :=
  .ok ((Row.empty (orderAt number)).withCell column (.new timestamp [1]))

/-- A note of the second order, and then an error. -/
def brokenNotes : List RowResult := [orderColumn 2 "note" 4, .error (.failed "notes")]

/-- A status of the second order, and one of the third order after an error. -/
def brokenStatuses : List RowResult :=
  [orderColumn 2 "status" 2, .error (.failed "statuses"), orderColumn 3 "status" 5]

/-- Two levels with errors. -/
def failingLevels : List Source := [failingLevel ⟨3⟩ brokenNotes, failingLevel ⟨1⟩ brokenStatuses]

/-- Over both levels the second order comes out twice, with an error between. Both parts together
    are the order, the errors of both levels are there, and a deletion of the orders is refused with
    the one that comes first. -/
theorem broken_scan_of_failingLevels : ∃ out,
    Compaction.scan failingLevels [0] .full = .ok out ∧
    Scan.errors out = [.failed "statuses", .failed "notes"] ∧
    (Scan.rowsOf (orderAt 2) out).length = 2 ∧
    Row.joinAll? (Scan.rowsOf (orderAt 2) out) =
      some (((Row.empty (orderAt 2)).withDeletion ⟨3⟩).withCell "note" (.new 4 [1])) ∧
    ∀ s, commit .none (.deletePartition [0] ⟨9⟩) s
      (ordersEngine.updates ⟨fun key => .ok (.empty key), Compaction.scan failingLevels⟩
        (.deletePartition [0] ⟨9⟩) 1) = (.error (.store (.failed "statuses")), s) := by
  have hopen : failingLevels.mapM (Compaction.open? [0] .full) = .ok _ := rfl
  have hmerge : Scan.errors (Scan.merge RowResult.precedes [brokenNotes, brokenStatuses]) =
      [.failed "statuses", .failed "notes"] := by decide +kernel
  have hlength : (Compaction.scan failingLevels [0] .full).map
      (fun out => (Scan.rowsOf (orderAt 2) out).length) = .ok 2 := by decide +kernel
  obtain ⟨out, hout, hkeeps, hrefused⟩ :=
    broken_scan hopen (Scan.interleaves_merge RowResult.precedes _)
  obtain ⟨err, herr, hcommit⟩ := hrefused ⟨fun key => .ok (.empty key), Compaction.scan failingLevels⟩
    (.deletePartition [0] ⟨9⟩) ⟨9⟩ rfl rfl
    ⟨brokenNotes, List.mem_cons_self, .failed "notes", List.mem_cons_of_mem _ List.mem_cons_self⟩
  obtain rfl : .failed "statuses" = err :=
    Option.some.inj ((congrArg List.head? hmerge).symm.trans herr)
  rw [Compaction.scan, hout] at hlength
  refine ⟨out, hout, hkeeps.errors_eq.trans hmerge, Except.ok.inj hlength, ?_, fun s => ?_⟩
  · exact (hkeeps.rows_eq (orderAt 2)).trans (by decide +kernel)
  · exact hcommit ordersEngine .none s 1

end Orders

end Engine

end ViewMaintenance
