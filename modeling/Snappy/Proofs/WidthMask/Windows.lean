import Snappy.Proofs.Checked.WidthMask
import Snappy.Proofs.WidthMask.Threshold

namespace Snappy

namespace WidthMask

section Codes

variable {codes others : List WidthCode}

end Codes

end WidthMask

end Snappy
