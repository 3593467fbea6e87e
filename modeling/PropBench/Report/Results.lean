import PropBench.Report.Record
import PropBench.Session.Basic

/-!
# Report — Results

Results as records.
-/

namespace PropBench

/-- A profile as a record. -/
def PostProfile.record (p : PostProfile) : Datum :=
  .record (PostProperty.all.map fun q => (q.key, .flag (p.holds q)))

/-- A reference to an operator as a record. -/
def OperatorRef.record (o : OperatorRef) : Datum :=
  .record [("kind", .text o.kind), ("name", .text o.name)]

/-- The profile of an operator as a record. -/
def OperatorProfile.record (p : OperatorProfile) : Datum :=
  .record [("operator", p.operator.record), ("arity", .count p.arity),
    ("profile", p.profile.record)]

/-- The fields of a report. -/
def AdequacyReport.fields (r : AdequacyReport) : List (String × Datum) :=
  [("opset", .text r.opset), ("adequate", .flag r.adequate),
    ("retained", .list (r.retained.map fun p => .text p.key)),
    ("operators", .list (r.operators.map OperatorProfile.record))]

/-- The answer of a statement as a record; its kind comes first. -/
def Outcome.record : Outcome → Datum
  | .declared space names =>
    .record [("outcome", .text "declared"), ("namespace", .text space.text),
      ("names", .list (names.map .text))]
  | .evaluated f v b =>
    .record [("outcome", .text "evaluated"), ("formula", .text f), ("valuation", .text v),
      ("value", .flag b)]
  | .adequacy r => .record (("outcome", .text "adequacy") :: r.fields)

/-- A result as a record. -/
def Result.record (r : Result) : Datum :=
  .record [("index", .count r.index), ("kind", .text r.kind.key),
    ("outcome",
      match r.outcome with
      | .ok o => .record [("Ok", o.record)]
      | .error f => .record [("Err", f.record)])]

/-- Results as a list of records. -/
def recordsOf (results : List Result) : Datum := .list (results.map Result.record)

end PropBench
