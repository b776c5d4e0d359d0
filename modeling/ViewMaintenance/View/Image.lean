import ViewMaintenance.View.Existence

namespace ViewMaintenance.View

/-- The data of a base row as far as a view row may hold it. The marker of a base row goes into
    view rows only if no column is promoted. -/
def image (v : View) (r : Row) : Row where
  key := r.key
  marker := if v.isStrict then none else r.marker
  deletion := r.deletion
  cells := r.cells.filterMap v.cellImage?

end ViewMaintenance.View
