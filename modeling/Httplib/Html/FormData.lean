import Httplib.Util.Misc

/-!
# The data of an HTML form

`html::form_data` (`include/httplib/html/form_data.hpp`): the value the multipart body holds.
-/

namespace Httplib

/-- `form_data::field` (`form_data.hpp:17`). -/
structure FormData.Field where
  name : Bytes := []
  filename : Bytes := []
  contentType : Bytes := []
  content : Bytes := []
  deriving DecidableEq

/-- `html::form_data` (`form_data.hpp:14`). -/
structure FormData where
  fields : List FormData.Field := []
  boundary : Bytes := []
  deriving DecidableEq

end Httplib
