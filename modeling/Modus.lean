import Modus.Logic
import Modus.Counter
import Modus.Unification
import Modus.Builtin
import Modus.Equivariance
import Modus.Sld.Engine
import Modus.Sld.Derivation
import Modus.Sld.Safety
import Modus.Sld.Proofs
import Modus.Sld.History
import Modus.Sld.Answers
import Modus.Sld.Soundness
import Modus.Sld.Freshness
import Modus.Sld.Validity
import Modus.Sld.Completeness
import Modus.Sld.Exploration
import Modus.Sld.Refinement
import Modus.Sld.Comparison
import Modus.Translate.Lowering
import Modus.Translate.FormatString
import Modus.Translate.Preservation
import Modus.Parse.Ir
import Modus.Parse.Modusfile
